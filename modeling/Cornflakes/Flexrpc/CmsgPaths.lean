import Cornflakes.Flexrpc.Cmsg

/-!
# The two paths of `flexxdr_callmsg`

`flexxdr_callmsg` goes through a block of 16 bytes when the stream gives it one, and field by field when it does not.
The block has the four words after the direction (`callmsg_encode_block`, `callmsg_block`); the fields start with the
transaction id and the direction. So the paths never end at the same place with the same result (`paths_differ`), and
neither leaves the transaction id and the direction alone unless not even one word can be moved (`oneLayout_iff`).
-/

set_option autoImplicit false

namespace Cornflakes.Flexrpc

open Wire

variable {σ α : Type}

/-! ## Streams without blocks -/

/-- The same stream behind a table whose `f_inline` returns NULL. -/
def Flexxdr.noInline (X : Flexxdr σ) : Flexxdr σ :=
  { X with fOps := { X.fOps with fInline := some fun _ s => (none, s) } }

@[simp] theorem Flexxdr.fOp_noInline (X : Flexxdr σ) : X.noInline.fOp = X.fOp := rfl

@[simp] theorem Flexxdr.strm_noInline (X : Flexxdr σ) : X.noInline.strm = X.strm := rfl

theorem getlong_noInline (X : Flexxdr σ) :
    flexxdrGetlong X.noInline = (flexxdrGetlong X).map fun r => (r.1, r.2.noInline) := by
  have he : X.noInline.fOps.fGetlong = X.fOps.fGetlong := rfl
  unfold flexxdrGetlong
  rw [he]
  rcases X.fOps.fGetlong with _ | f
  · rfl
  · dsimp only [Flexxdr.strm_noInline]
    rcases f X.strm with e | ⟨l, s⟩ <;> rfl

theorem putlong_noInline (X : Flexxdr σ) (lp : ULong) :
    flexxdrPutlong X.noInline lp = (flexxdrPutlong X lp).map fun r => (r.1, r.2.noInline) := by
  have he : X.noInline.fOps.fPutlong = X.fOps.fPutlong := rfl
  unfold flexxdrPutlong
  rw [he]
  rcases X.fOps.fPutlong with _ | f
  · rfl
  · dsimp only [Flexxdr.strm_noInline]
    rcases f lp X.strm with e | ⟨l, s⟩ <;> rfl

theorem uLong_noInline (X : Flexxdr σ) (ulp : ULong) :
    flexxdrULong X.noInline ulp = onStream Flexxdr.noInline (flexxdrULong X ulp) := by
  unfold flexxdrULong
  rw [X.fOp_noInline]
  cases X.fOp with
  | decode =>
    dsimp only
    rw [getlong_noInline]
    rcases flexxdrGetlong X with e | ⟨_ | l, X'⟩ <;> rfl
  | encode =>
    dsimp only
    split
    · rfl
    · rw [putlong_noInline]
      rcases flexxdrPutlong X ulp with e | ⟨ok, X'⟩ <;> rfl
  | free => rfl

theorem enum_noInline (X : Flexxdr σ) (ep : Word) :
    flexxdrEnum X.noInline ep = onStream Flexxdr.noInline (flexxdrEnum X ep) := by
  unfold flexxdrEnum
  rw [X.fOp_noInline]
  cases X.fOp with
  | decode =>
    dsimp only
    rw [getlong_noInline]
    rcases flexxdrGetlong X with e | ⟨_ | l, X'⟩ <;> rfl
  | encode =>
    dsimp only
    rw [putlong_noInline]
    rcases flexxdrPutlong X (ep.signExtend 64) with e | ⟨ok, X'⟩ <;> rfl
  | free => rfl

/-- Without blocks `flexxdr_callmsg` is its codecs, which do not ask for one. -/
theorem callmsg_noInline (X : Flexxdr σ) (m : RpcMsg σ α) :
    flexxdrCallmsg X.noInline m = onStream Flexxdr.noInline (callmsgFields X m) := by
  have hf : callmsgFields X.noInline m = onStream Flexxdr.noInline (callmsgFields X m) := by
    unfold callmsgFields
    rw [uLong_noInline, onField_onStream]
    refine andThen_onStream fun X m => ?_
    rw [enum_noInline, onField_onStream]
    refine andThen_onStream fun X m => ?_
    split
    · rfl
    rw [uLong_noInline, onField_onStream]
    refine andThen_onStream fun X m => ?_
    split
    · rfl
    rw [uLong_noInline, onField_onStream]
    refine andThen_onStream fun X m => ?_
    rw [uLong_noInline, onField_onStream]
    refine andThen_onStream fun X m => ?_
    rw [uLong_noInline, onField_onStream]
  unfold flexxdrCallmsg
  rw [X.fOp_noInline]
  cases X.fOp with
  | encode => exact hf
  | decode => exact hf
  | free => exact hf

/-! ## Field by field -/

section Fields

variable {op : FlexxdrOp} {c : MemCursor}

/-- A word is moved, or the stream stays where it is. -/
theorem uLong_step (hop : op ≠ .free) (c : MemCursor) (ulp : ULong) :
    flexxdrULong (memStrm op c) ulp = .ok (false, ulp, memStrm op c) ∨
      ∃ v c', c'.pos = c.pos + 4 ∧ flexxdrULong (memStrm op c) ulp = .ok (true, v, memStrm op c') := by
  cases op with
  | free => exact absurd rfl hop
  | encode =>
    by_cases h : ulp.toNat < 2 ^ 32 ∧ 4 ≤ c.room
    · exact Or.inr ⟨ulp, _, c.pos_write _, uLong_encode h.1 h.2⟩
    · exact Or.inl (uLong_refused h)
  | decode =>
    rcases word_cases c.ahead with h | ⟨w, r, h⟩
    · exact Or.inl (uLong_short ulp h)
    · exact Or.inr ⟨w.setWidth 64, _, c.pos_advance (room_word h), uLong_decode ulp h⟩

theorem enum_step (hop : op ≠ .free) (c : MemCursor) (ep : Word) :
    flexxdrEnum (memStrm op c) ep = .ok (false, ep, memStrm op c) ∨
      ∃ w c', c'.pos = c.pos + 4 ∧ flexxdrEnum (memStrm op c) ep = .ok (true, w, memStrm op c') := by
  cases op with
  | free => exact absurd rfl hop
  | encode =>
    by_cases h : 4 ≤ c.room
    · exact Or.inr ⟨ep, _, c.pos_write _, enum_encode ep h⟩
    · exact Or.inl (enum_full ep (by omega))
  | decode =>
    rcases word_cases c.ahead with h | ⟨w, r, h⟩
    · exact Or.inl (enum_short ep h)
    · exact Or.inr ⟨w, _, c.pos_advance (room_word h), enum_decode ep h⟩

/-- The codecs return, and after four words only if the third was the version and a later one is refused. -/
theorem fields_place (hop : op ≠ .free) (c : MemCursor) (m : RpcMsg FlexxdrMem α) :
    ∃ ok m' c', callmsgFields (memStrm op c) m = .ok (ok, m', memStrm op c') ∧
      (c'.pos = c.pos + 16 → ok = false ∧ m'.cbRpcvers = flexrpcMsgVersion) := by
  unfold callmsgFields
  rcases uLong_step hop c m.rmXid with h | ⟨xid, c₁, h₁, h⟩
  · exact ⟨_, _, c, by rw [h]; rfl, by omega⟩
  rw [h, onField_ok, andThen_true]
  rcases enum_step hop c₁ (m.setRmXid xid).rmDirection with h | ⟨d, c₂, h₂, h⟩
  · exact ⟨_, _, c₁, by rw [h]; rfl, by omega⟩
  rw [h, onField_ok, andThen_true]
  split
  · exact ⟨_, _, c₂, rfl, by omega⟩
  rcases uLong_step hop c₂ ((m.setRmXid xid).setRmDirection d).cbRpcvers with h | ⟨v, c₃, h₃, h⟩
  · exact ⟨_, _, c₂, by rw [h]; rfl, by omega⟩
  rw [h, onField_ok, andThen_true]
  split
  · exact ⟨_, _, c₃, rfl, by omega⟩
  next hv =>
    generalize ((m.setRmXid xid).setRmDirection d).setCbRpcvers v = m at hv
    replace hv : m.cbRpcvers = flexrpcMsgVersion := not_not.mp hv
    rcases uLong_step hop c₃ m.cbProg with h | ⟨p, c₄, h₄, h⟩
    · exact ⟨_, _, c₃, by rw [h]; rfl, by omega⟩
    rw [h, onField_ok, andThen_true]
    rcases uLong_step hop c₄ (m.setCbProg p).cbVers with h | ⟨w, c₅, h₅, h⟩
    · refine ⟨_, _, c₄, by rw [h]; rfl, fun _ => ⟨rfl, ?_⟩⟩
      exact hv
    rw [h, onField_ok, andThen_true]
    rcases uLong_step hop c₅ ((m.setCbProg p).setCbVers w).cbProc with h | ⟨q, c₆, h₆, h⟩
    · exact ⟨_, _, c₅, by rw [h]; rfl, by omega⟩
    · exact ⟨_, _, c₆, by rw [h]; rfl, by omega⟩

end Fields

/-! ## Through a block -/

theorem callmsg_full {op : FlexxdrOp} (hop : op ≠ .free) {c : MemCursor} (m : RpcMsg FlexxdrMem α) (hr : c.room < 16) :
    flexxdrCallmsg (memStrm op c) m = callmsgFields (memStrm op c) m := by
  have hi : c.room < (16 : BitVec 32).toNat := hr
  cases op with
  | free => exact absurd rfl hop
  | encode =>
    unfold flexxdrCallmsg
    simp only [memStrm_fOp, inline_short hi, ok_bind]
  | decode =>
    unfold flexxdrCallmsg
    simp only [memStrm_fOp, inline_short hi, ok_bind]

/-- The block is used up, and FALSE means another version. -/
theorem block_place {op : FlexxdrOp} (hop : op ≠ .free) (c : MemCursor) (m : RpcMsg FlexxdrMem α) (hr : 16 ≤ c.room) :
    ∃ ok m' c', flexxdrCallmsg (memStrm op c) m = .ok (ok, m', memStrm op c') ∧ c'.pos = c.pos + 16 ∧
      (ok = false → m'.cbRpcvers ≠ flexrpcMsgVersion) := by
  cases op with
  | free => exact absurd rfl hop
  | encode =>
    rw [callmsg_encode_block m hr]
    by_cases hv : m.cbRpcvers = flexrpcMsgVersion
    · rw [if_pos hv]
      exact ⟨true, m, _, rfl, c.pos_write _, fun h => Bool.noConfusion h⟩
    · rw [if_neg hv]
      refine ⟨false, m, _, rfl, ?_, fun _ => hv⟩
      rw [Cursor.pos_advance _ (by rw [Cursor.room_write, length_toBytes]; omega), c.pos_write, length_toBytes]
  | decode =>
    obtain ⟨v, p, w, q, r, h⟩ : ∃ v p w q r, c.ahead = words [v, p, w, q] ++ r := by
      rcases two_words_cases c.ahead with hs | ⟨v, p, r, h⟩
      · unfold Cursor.room at hr
        omega
      · rcases two_words_cases r with hs | ⟨w, q, r', h'⟩
        · unfold Cursor.room at hr
          rw [h, List.length_append, length_words] at hr
          simp only [List.length_cons, List.length_nil] at hr
          omega
        · exact ⟨v, p, w, q, r', by rw [h, h', ← List.append_assoc, ← words_append]; rfl⟩
    rw [callmsg_block m h]
    by_cases hv : v = 8
    · rw [if_pos hv]
      exact ⟨true, _, _, rfl, c.pos_advance hr, fun h => Bool.noConfusion h⟩
    · rw [if_neg hv]
      refine ⟨false, _, _, rfl, c.pos_advance hr, fun _ hn => hv ?_⟩
      rw [← setWidth_setWidth v (show 32 ≤ 64 by decide), show v.setWidth 64 = flexrpcMsgVersion from hn]
      rfl

/-! ## One layout -/

/-- The same result, the same stream and the same fields, from two tables of operations. -/
def SameCall (r r' : Except Fault (Outcome σ (RpcMsg σ α))) : Prop :=
  ∃ ok m X m' X', r = .ok (ok, m, X) ∧ r' = .ok (ok, m', X') ∧ X.strm = X'.strm ∧ m.callFields = m'.callFields

/-- The transaction id and the direction are neither read nor changed. -/
def Spares (f : RpcMsg σ α → Except Fault (Outcome σ (RpcMsg σ α))) (m : RpcMsg σ α) : Prop :=
  ∀ xid d, f ((m.setRmXid xid).setRmDirection d) =
    (f m).map fun (ok, m', X) => (ok, (m'.setRmXid xid).setRmDirection d, X)

/-- The path of a memory stream and the path without blocks do the same, and leave alone what is not theirs. -/
structure OneLayout (op : FlexxdrOp) (c : MemCursor) (m : RpcMsg FlexxdrMem α) : Prop where
  same : SameCall (flexxdrCallmsg (memStrm op c).noInline m) (flexxdrCallmsg (memStrm op c) m)
  slow : Spares (flexxdrCallmsg (memStrm op c).noInline) m
  fast : Spares (flexxdrCallmsg (memStrm op c)) m

section OneLayout

variable {op : FlexxdrOp} {c : MemCursor}

/-- Where there is a block, the paths never end at the same place with the same result and the same fields. -/
theorem paths_differ (hop : op ≠ .free) (hr : 16 ≤ c.room) (m : RpcMsg FlexxdrMem α) :
    ¬ SameCall (flexxdrCallmsg (memStrm op c).noInline m) (flexxdrCallmsg (memStrm op c) m) := by
  rintro ⟨ok, m₁, X, m₂, Y, hs, hf, hX, hm⟩
  obtain ⟨ok₁, m₁', c₁, h₁, hp₁⟩ := fields_place hop c m
  obtain ⟨ok₂, m₂', c₂, h₂, hp₂, hv⟩ := block_place hop c m hr
  rw [callmsg_noInline, h₁] at hs
  rw [h₂] at hf
  cases hs
  cases hf
  have hpos : c₁.pos = c₂.pos := congrArg FlexxdrMem.fPrivate hX
  obtain ⟨rfl, h8⟩ := hp₁ (hpos.trans hp₂)
  have hvers : m₁.cbRpcvers = m₂.cbRpcvers := by
    simp only [RpcMsg.callFields, Prod.mk.injEq] at hm
    exact hm.2.2.1
  exact hv rfl (hvers ▸ h8)

/-- Without room for a word nothing happens at all. -/
theorem fields_short (hop : op ≠ .free) (hr : c.room < 4) (m : RpcMsg FlexxdrMem α) :
    callmsgFields (memStrm op c) m = .ok (false, m, memStrm op c) := by
  have hu : flexxdrULong (memStrm op c) m.rmXid = .ok (false, m.rmXid, memStrm op c) := by
    cases op with
    | free => exact absurd rfl hop
    | encode => exact uLong_refused fun h => absurd h.2 (by omega)
    | decode => exact uLong_short _ hr
  rw [callmsgFields, hu]
  rfl

/-- A transaction id that does not fit is refused at once, and one that does is written. -/
theorem fields_encode_xid (hr : 4 ≤ c.room) (m : RpcMsg FlexxdrMem α) (hd : m.rmDirection ≠ MsgType.call) :
    ∃ m' c', callmsgFields (memStrm .encode c) m = .ok (false, m', memStrm .encode c') ∧
      (m.rmXid.toNat < 2 ^ 32 → c.pos < c'.pos) ∧ (¬ m.rmXid.toNat < 2 ^ 32 → c'.pos = c.pos) := by
  unfold callmsgFields
  by_cases hx : m.rmXid.toNat < 2 ^ 32
  · have hp : c.pos < (c.write (toBytes (m.rmXid.setWidth 32))).pos := by
      rw [c.pos_write, length_toBytes]
      omega
    rw [uLong_encode hx hr, onField_ok, andThen_true]
    by_cases h4 : 4 ≤ (c.write (toBytes (m.rmXid.setWidth 32))).room
    · rw [enum_encode _ h4, onField_ok, andThen_true]
      refine ⟨_, _, if_pos hd, fun _ => ?_, fun hn => absurd hx hn⟩
      rw [Cursor.pos_write]
      omega
    · rw [enum_full _ (Nat.not_le.mp h4)]
      exact ⟨_, _, rfl, fun _ => hp, fun hn => absurd hx hn⟩
  · rw [uLong_refused fun h => hx h.1]
    exact ⟨_, c, rfl, fun h => absurd h hx, fun _ => rfl⟩

/-- Decoding overwrites the transaction id with the first word. -/
theorem fields_decode_xid {w : Word} {r : List Byte} (h : c.ahead = toBytes w ++ r) (m : RpcMsg FlexxdrMem α) :
    Leaves (fun m => m.rmXid = w.setWidth 64) (callmsgFields (memStrm .decode c) m) := by
  unfold callmsgFields
  rw [uLong_decode m.rmXid h, onField_ok, andThen_true]
  refine Leaves.andThen (Leaves.onField (Leaves.any _) fun _ _ => rfl) fun X m hm => ?_
  split
  · exact Leaves.ok hm
  refine Leaves.andThen (Leaves.onField (Leaves.any _) fun _ _ => hm) fun X m hm => ?_
  split
  · exact Leaves.ok hm
  refine Leaves.andThen (Leaves.onField (Leaves.any _) fun _ _ => hm) fun X m hm => ?_
  refine Leaves.andThen (Leaves.onField (Leaves.any _) fun _ _ => hm) fun X m hm => ?_
  exact Leaves.onField (Leaves.any _) fun _ _ => hm

/-- With room for a word the codecs write the transaction id or overwrite it. -/
theorem slow_not_spare (hop : op ≠ .free) (hr : 4 ≤ c.room) (m : RpcMsg FlexxdrMem α) :
    ¬ Spares (flexxdrCallmsg (memStrm op c).noInline) m := by
  intro h
  obtain ⟨ok, m₀, c₀, h₀, -⟩ := fields_place hop c m
  cases op with
  | free => exact absurd rfl hop
  | encode =>
    -- Two ids, and a direction that ends the codecs.
    have hfits := h 0 1
    have hwide := h (2 ^ 32) 1
    obtain ⟨m₁, c₁, h₁, hp₁, -⟩ := fields_encode_xid hr ((m.setRmXid 0).setRmDirection 1) (by intro hd; cases hd)
    obtain ⟨m₂, c₂, h₂, -, hp₂⟩ := fields_encode_xid hr ((m.setRmXid (2 ^ 32)).setRmDirection 1) (by intro hd; cases hd)
    rw [callmsg_noInline, callmsg_noInline, h₀, h₁] at hfits
    rw [callmsg_noInline, callmsg_noInline, h₀, h₂] at hwide
    simp only [onStream, Except.map, Except.ok.injEq, Prod.mk.injEq] at hfits hwide
    have e₁ : c₁.pos = c₀.pos := congrArg (fun X => X.strm.fPrivate) hfits.2.2
    have e₂ : c₂.pos = c₀.pos := congrArg (fun X => X.strm.fPrivate) hwide.2.2
    have l₁ := hp₁ (show (0 : ULong).toNat < 2 ^ 32 by decide)
    have l₂ := hp₂ (show ¬ ((2 : ULong) ^ 32).toNat < 2 ^ 32 by decide)
    omega
  | decode =>
    rcases word_cases c.ahead with hs | ⟨w, r, hw⟩
    · unfold Cursor.room at hr
      omega
    · -- An id that is not the first word.
      have hx := h (w.setWidth 64 + 1) 0
      obtain ⟨ok₁, m₁, c₁, h₁, -⟩ :=
        fields_place hop c ((m.setRmXid (w.setWidth 64 + 1)).setRmDirection 0)
      have hl := fields_decode_xid hw _ _ _ _ h₁
      rw [callmsg_noInline, callmsg_noInline, h₀, h₁] at hx
      simp only [onStream, Except.map, Except.ok.injEq, Prod.mk.injEq] at hx
      rw [hx.2.1] at hl
      replace hl : (w.setWidth 64 + 1 : ULong) = w.setWidth 64 := hl
      bv_omega

/-- **The two paths are one layout only where there is no room for a word.** -/
theorem oneLayout_iff (hop : op ≠ .free) (c : MemCursor) (m : RpcMsg FlexxdrMem α) :
    OneLayout op c m ↔ c.room < 4 := by
  constructor
  · intro h
    by_contra hr
    exact slow_not_spare hop (Nat.not_lt.mp hr) m h.slow
  · intro hr
    have hf (m : RpcMsg FlexxdrMem α) : flexxdrCallmsg (memStrm op c) m = .ok (false, m, memStrm op c) := by
      rw [callmsg_full hop m (by omega), fields_short hop hr m]
    have hs (m : RpcMsg FlexxdrMem α) :
        flexxdrCallmsg (memStrm op c).noInline m = .ok (false, m, (memStrm op c).noInline) := by
      rw [callmsg_noInline, fields_short hop hr m]
      rfl
    refine ⟨⟨_, _, _, _, _, hs m, hf m, rfl, rfl⟩, fun xid d => ?_, fun xid d => ?_⟩
    · rw [hs, hs]
      rfl
    · rw [hf, hf]
      rfl

end OneLayout

/-- The call `7` of a procedure. -/
def sampleCall : RpcMsg FlexxdrMem Unit := (RpcMsg.zeros.setRmXid 7).setCall 0x20000001 1 1

/-- Three bytes are no room, and sixteen are. -/
theorem oneLayout_iff_sampleCall :
    (OneLayout .encode (.ofBuffer [1, 2, 3] (by decide)) sampleCall ↔
      Cursor.room (.ofBuffer [1, 2, 3] (by decide) : MemCursor) < 4) ∧
    (OneLayout .decode (.ofBuffer (words (callWords 0x20000001 1 1)) (by decide)) sampleCall ↔
      Cursor.room (.ofBuffer (words (callWords 0x20000001 1 1)) (by decide) : MemCursor) < 4) :=
  ⟨oneLayout_iff (by decide) (.ofBuffer [1, 2, 3] (by decide)) sampleCall,
    oneLayout_iff (by decide) (.ofBuffer (words (callWords 0x20000001 1 1)) (by decide)) sampleCall⟩

/-- Four words: the block is the version and a key, and the codecs take the version for a transaction id. -/
theorem layouts_differ :
    ¬ OneLayout .decode (.ofBuffer (words (callWords 1 1 1)) (by decide)) (.zeros : RpcMsg FlexxdrMem Unit) := by
  intro h
  exact paths_differ (by decide) (by decide) .zeros h.same

end Cornflakes.Flexrpc

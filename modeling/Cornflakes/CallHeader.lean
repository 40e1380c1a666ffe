import Cornflakes.ReplyHeader

/-!
# Two encoders of a call header

`cornflake_serialize` writes the header of a call with `flexxdr_callhdr` and a bare `FLEXXDR_PUTLONG`; what it decodes is
read by `cornflake_peek_header` and `flexxdr_callmsg`, which encode as well. Both write the same six words
(`serializeHeader_fits`, `peekHeader_fits`). The first checks the transaction id, the program and the version, the second
the transaction id only, so they accept the same messages where the other two fit (`sameHeader_iff`).
-/

set_option autoImplicit false

namespace Cornflakes

open Wire Flexrpc

variable {σ α : Type}

/-- `flexxdr_callhdr`, then `FLEXXDR_PUTLONG` of `cb_proc`. -/
def serializeHeader (X : Flexxdr σ) (cf : Cflake σ α) : Except Fault (Outcome σ (Cflake σ α)) :=
  andThen (onField (flexxdrCallhdr X cf.msg) cf.setMsg) fun X cf => do
    let (ok, X) ← flexxdrPutlong X cf.msg.cbProc
    return (ok, cf, X)

/-- `cornflake_peek_header`, then `flexxdr_callmsg`. -/
def peekHeader (X : Flexxdr σ) (cf : Cflake σ α) : Except Fault (Outcome σ (Cflake σ α)) :=
  andThen (cornflakePeekHeader X cf) fun X cf => onField (flexxdrCallmsg X cf.msg) cf.setMsg

/-- Both encoders accept the message or neither does, and what they accept they write as the same six words. -/
structure SameHeader (c : MemCursor) (cf : Cflake FlexxdrMem α) : Prop where
  accepts : Returns (serializeHeader (memStrm .encode c) cf) true ↔ Returns (peekHeader (memStrm .encode c) cf) true
  writes : ∀ cf₁ X₁ cf₂ X₂, serializeHeader (memStrm .encode c) cf = .ok (true, cf₁, X₁) →
    peekHeader (memStrm .encode c) cf = .ok (true, cf₂, X₂) →
      X₁ = X₂ ∧ ∃ ws : List Word, ws.length = 6 ∧ X₁ = memStrm .encode (c.write (words ws))

section Encoders

variable {c : MemCursor} {cf : Cflake FlexxdrMem α}

theorem serializeHeader_fits (hf : cf.msg.HeaderFits) (hr : 24 ≤ c.room) : ∃ cf',
    serializeHeader (memStrm .encode c) cf = .ok (true, cf', memStrm .encode (c.write (words (callMessage cf.msg)))) := by
  have hl : (words cf.msg.headerWords).length = 20 := length_words _
  have hc := callhdr_puts hf c (by omega)
  have hp : flexxdrPutlong (memStrm .encode (c.write (words cf.msg.headerWords))) cf.msg.cbProc = _ :=
    putlong_room cf.msg.cbProc (by rw [Cursor.room_write]; omega)
  have hw : (c.write (words cf.msg.headerWords)).write (toBytes (cf.msg.cbProc.setWidth 32)) =
      c.write (words (callMessage cf.msg)) := by
    rw [Cursor.write_write, callMessage, words_append]
    rfl
  refine ⟨cf.setMsg (callhdrMsg cf.msg), ?_⟩
  simp only at hc
  rw [serializeHeader, hc, onField_ok, andThen_true]
  show (flexxdrPutlong _ cf.msg.cbProc >>= _) = _
  rw [hp, hw]
  rfl

theorem serializeHeader_wide (hf : ¬ cf.msg.HeaderFits) :
    Returns (serializeHeader (memStrm .encode c) cf) false := by
  obtain ⟨c', hc⟩ := callhdr_refuses hf c
  simp only at hc
  rw [serializeHeader, hc, onField_ok, andThen_false, returns_ok]

theorem peekHeader_fits (hd : cf.msg.rmDirection = MsgType.call) (hv : cf.msg.cbRpcvers = flexrpcMsgVersion)
    (hx : cf.msg.rmXid.toNat < 2 ^ 32) (hr : 24 ≤ c.room) : ∃ cf',
    peekHeader (memStrm .encode c) cf = .ok (true, cf', memStrm .encode (c.write (words (callMessage cf.msg)))) := by
  have hp := peek_puts hx c (by rw [length_words, List.length_cons, List.length_singleton]; omega)
  have hr' : 16 ≤ (c.write (words [cf.msg.rmXid.setWidth 32, cf.msg.rmDirection])).room := by
    rw [Cursor.room_write, length_words]
    exact Nat.le_sub_of_add_le hr
  have hc : callMessage cf.msg = [cf.msg.rmXid.setWidth 32, cf.msg.rmDirection] ++ cf.msg.callmsgWords := by
    rw [hd, RpcMsg.callmsgWords, hv]
    rfl
  refine ⟨cf.setMsg cf.msg, ?_⟩
  simp only at hp
  rw [peekHeader, hp, andThen_true, callmsg_encode_block cf.msg hr', if_pos hv, onField_ok, Cursor.write_write, hc, words_append]

theorem peekHeader_wide (hx : ¬ cf.msg.rmXid.toNat < 2 ^ 32) :
    Returns (peekHeader (memStrm .encode c) cf) false := by
  rw [peekHeader, peek_refused hx, andThen_false, returns_ok]

end Encoders

/-- **The encoders agree on a call whose transaction id is refused by both, or whose program and version fit.** -/
theorem sameHeader_iff (c : MemCursor) (cf : Cflake FlexxdrMem α) (hd : cf.msg.rmDirection = MsgType.call)
    (hv : cf.msg.cbRpcvers = flexrpcMsgVersion) (hr : 24 ≤ c.room) :
    SameHeader c cf ↔
      (cf.msg.rmXid.toNat < 2 ^ 32 → cf.msg.cbProg.toNat < 2 ^ 32 ∧ cf.msg.cbVers.toNat < 2 ^ 32) := by
  constructor
  · intro h hx
    by_contra hn
    obtain ⟨cf', hp⟩ := peekHeader_fits hd hv hx hr
    exact not_returns_both (h.accepts.mpr ⟨cf', _, hp⟩) (serializeHeader_wide fun hf => hn hf.2)
  · intro h
    by_cases hx : cf.msg.rmXid.toNat < 2 ^ 32
    · obtain ⟨cf₁, h₁⟩ := serializeHeader_fits (c := c) ⟨hx, h hx⟩ hr
      obtain ⟨cf₂, h₂⟩ := peekHeader_fits hd hv hx hr
      refine ⟨iff_of_true ⟨cf₁, _, h₁⟩ ⟨cf₂, _, h₂⟩, fun cf₁' X₁ cf₂' X₂ e₁ e₂ => ?_⟩
      rw [h₁] at e₁
      rw [h₂] at e₂
      cases e₁
      cases e₂
      exact ⟨rfl, callMessage cf.msg, rfl, rfl⟩
    · have hs : Returns (serializeHeader (memStrm .encode c) cf) false := serializeHeader_wide fun hf => hx hf.1
      have hp : Returns (peekHeader (memStrm .encode c) cf) false := peekHeader_wide hx
      refine ⟨iff_of_false (fun ht => not_returns_both ht hs) (fun ht => not_returns_both ht hp), ?_⟩
      intro cf₁ X₁ cf₂ X₂ e₁ e₂
      exact absurd hs (not_returns_both ⟨cf₁, X₁, e₁⟩)

/-- A call whose numbers are given, and 24 bytes of room for it. -/
def numbered (xid prog vers proc : ULong) : Cflake FlexxdrMem Unit :=
  ⟨⟨xid, MsgType.call, flexrpcMsgVersion, ⟨prog, .word vers, .word proc⟩⟩, ()⟩

def room24 : MemCursor := .ofBuffer (List.replicate 24 0) (by decide)

theorem sameHeader_iff_wide_proc : SameHeader room24 (numbered 1 2 3 0x100000000) ↔
    ((1 : ULong).toNat < 2 ^ 32 → (2 : ULong).toNat < 2 ^ 32 ∧ (3 : ULong).toNat < 2 ^ 32) :=
  sameHeader_iff room24 (numbered 1 2 3 0x100000000) rfl rfl (by decide)

/-- A program number that does not fit is refused by the first encoder and cut by the second. -/
theorem wide_prog_differs : ¬ SameHeader room24 (numbered 1 0x100000000 3 4) := by
  intro h
  have hr : 24 ≤ room24.room := by decide
  obtain ⟨cf', hp⟩ : ∃ cf', peekHeader (memStrm .encode room24) (numbered 1 0x100000000 3 4) = .ok (true, cf', _) :=
    peekHeader_fits rfl rfl (by decide) hr
  exact not_returns_both (h.accepts.mpr ⟨cf', _, hp⟩) (serializeHeader_wide fun hf => absurd hf.2.1 (by decide))

end Cornflakes

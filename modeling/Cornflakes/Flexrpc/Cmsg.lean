import Cornflakes.Flexrpc.Msg
import Cornflakes.Flexrpc.Xdr

/-!
# Call messages (`flexrpc_cmsg.c`)

`flexxdrCallmsg` encodes and decodes the four words of a call after its transaction id and direction. Decoding from a
memory stream accepts exactly the four words with the version in front (`callmsg_accepts`); what it leaves behind when
it refuses is `callmsgLeft` (`callmsg_refuses`).
-/

set_option autoImplicit false

namespace Cornflakes.Flexrpc

open Wire

variable {σ α : Type}

/-- The block of `flexxdr_callmsg` that encodes through the pointer `buf`. -/
def callmsgPut (X : Flexxdr σ) (buf : Nat) (cmsg : RpcMsg σ α) : Except Fault (Outcome σ (RpcMsg σ α)) := do
  let (buf, X) ← iflexxdrPutLong X buf cmsg.cbRpcvers
  if cmsg.cbRpcvers ≠ flexrpcMsgVersion then return (false, cmsg, X)
  let (buf, X) ← iflexxdrPutLong X buf cmsg.cbProg
  let (buf, X) ← iflexxdrPutLong X buf cmsg.cbVers
  let (_, X) ← iflexxdrPutLong X buf cmsg.cbProc
  return (true, cmsg, X)

/-- The block of `flexxdr_callmsg` that decodes through the pointer `buf`. -/
def callmsgGet (X : Flexxdr σ) (buf : Nat) (cmsg : RpcMsg σ α) : Except Fault (Outcome σ (RpcMsg σ α)) := do
  let (v, buf) ← iflexxdrGetLong X buf
  let cmsg := cmsg.setCbRpcvers v
  if cmsg.cbRpcvers ≠ flexrpcMsgVersion then return (false, cmsg, X)
  let (v, buf) ← iflexxdrGetLong X buf
  let cmsg := cmsg.setCbProg v
  let (v, buf) ← iflexxdrGetLong X buf
  let cmsg := cmsg.setCbVers v
  let (v, _) ← iflexxdrGetLong X buf
  return (true, cmsg.setCbProc v, X)

/-- The codecs of `flexxdr_callmsg` when there is no block. They take the transaction id and the direction too. -/
def callmsgFields (X : Flexxdr σ) (cmsg : RpcMsg σ α) : Except Fault (Outcome σ (RpcMsg σ α)) :=
  andThen (onField (flexxdrULong X cmsg.rmXid) cmsg.setRmXid) fun X cmsg =>
  andThen (onField (flexxdrEnum X cmsg.rmDirection) cmsg.setRmDirection) fun X cmsg =>
  if cmsg.rmDirection ≠ MsgType.call then .ok (false, cmsg, X) else
  andThen (onField (flexxdrULong X cmsg.cbRpcvers) cmsg.setCbRpcvers) fun X cmsg =>
  if cmsg.cbRpcvers ≠ flexrpcMsgVersion then .ok (false, cmsg, X) else
  andThen (onField (flexxdrULong X cmsg.cbProg) cmsg.setCbProg) fun X cmsg =>
  andThen (onField (flexxdrULong X cmsg.cbVers) cmsg.setCbVers) fun X cmsg =>
    onField (flexxdrULong X cmsg.cbProc) cmsg.setCbProc

def flexxdrCallmsg (X : Flexxdr σ) (cmsg : RpcMsg σ α) : Except Fault (Outcome σ (RpcMsg σ α)) :=
  match X.fOp with
  | .encode => do
    match ← flexxdrInline X 16 with
    | (some buf, X) => callmsgPut X buf cmsg
    | (none, X) => callmsgFields X cmsg
  | .decode => do
    match ← flexxdrInline X 16 with
    | (some buf, X) => callmsgGet X buf cmsg
    | (none, X) => callmsgFields X cmsg
  | .free => callmsgFields X cmsg

/-- The fields of a call message. -/
def RpcMsg.callFields (m : RpcMsg σ α) : ULong × Word × ULong × ULong × ULong × ULong :=
  (m.rmXid, m.rmDirection, m.cbRpcvers, m.cbProg, m.cbVers, m.cbProc)

/-! ## Decoding from a memory stream -/

/-- The fields of a call, as decoding stores them. -/
def RpcMsg.setCall (m : RpcMsg σ α) (prog vers proc : Word) : RpcMsg σ α :=
  (((m.setCbRpcvers flexrpcMsgVersion).setCbProg (prog.setWidth 64)).setCbVers (vers.setWidth 64)).setCbProc
    (proc.setWidth 64)

@[simp] theorem RpcMsg.rmDirection_setCall (m : RpcMsg σ α) (prog vers proc : Word) :
    (m.setCall prog vers proc).rmDirection = m.rmDirection := rfl

@[simp] theorem RpcMsg.cbProg_setCall (m : RpcMsg σ α) (prog vers proc : Word) :
    (m.setCall prog vers proc).cbProg = prog.setWidth 64 := rfl

@[simp] theorem RpcMsg.cbVers_setCall (m : RpcMsg σ α) (prog vers proc : Word) :
    (m.setCall prog vers proc).cbVers = vers.setWidth 64 := Slot.toWord_store _ _

@[simp] theorem RpcMsg.cbProc_setCall (m : RpcMsg σ α) (prog vers proc : Word) :
    (m.setCall prog vers proc).cbProc = proc.setWidth 64 := Slot.toWord_store _ _

/-- The rest of a call header after the direction: the version of the protocol, then the key of the call. -/
def callWords (prog vers proc : Word) : List Word := [8, prog, vers, proc]

theorem callWords_inj {prog vers proc prog' vers' proc' : Word} {r r' : List Byte}
    (h : words (callWords prog vers proc) ++ r = words (callWords prog' vers' proc') ++ r') :
    prog = prog' ∧ vers = vers' ∧ proc = proc' ∧ r = r' := by
  have hl : (callWords prog vers proc).length = (callWords prog' vers' proc').length := rfl
  obtain ⟨hw, hr⟩ := words_append_inj hl h
  simp only [callWords, List.cons.injEq, and_true, true_and] at hw
  exact ⟨hw.1, hw.2.1, hw.2.2, hr⟩

/-- The bytes after a direction word go on as a call header. -/
def GoodCall (bs : List Byte) : Prop := ∃ prog vers proc r, bs = words (callWords prog vers proc) ++ r

/-- The direction that a record of a call has after `flexxdr_callmsg` has refused to decode `bs` into it: with too few
bytes for a block the codecs read a direction again. -/
def reread (bs : List Byte) : Word :=
  match wordsOf bs with
  | [_, d] => d
  | [_, d, _] => d
  | _ => MsgType.call

section Decode

variable {c : MemCursor} (m : RpcMsg FlexxdrMem α)

/-- Where the stream and the record are left by `flexxdr_callmsg` when it refuses to decode. With four words there is
a block, and only the version was stored. With fewer, the codecs took what there was for the transaction id, the
direction and the version. -/
def callmsgLeft (c : MemCursor) (m : RpcMsg FlexxdrMem α) : MemCursor × RpcMsg FlexxdrMem α :=
  match wordsOf c.ahead with
  | [] => (c, m)
  | [xid] => (c.advance 4, m.setRmXid (xid.setWidth 64))
  | [xid, d] => (c.advance 8, (m.setRmXid (xid.setWidth 64)).setRmDirection d)
  | [xid, d, v] =>
    if d = MsgType.call then
      (c.advance 12, ((m.setRmXid (xid.setWidth 64)).setRmDirection d).setCbRpcvers (v.setWidth 64))
    else (c.advance 8, (m.setRmXid (xid.setWidth 64)).setRmDirection d)
  | v :: _ => (c.advance 16, m.setCbRpcvers (v.setWidth 64))

/-- Refusing a header leaves the key of the record as it was. -/
theorem body_callmsgLeft (c : MemCursor) (m : RpcMsg FlexxdrMem α) : (callmsgLeft c m).2.body = m.body := by
  unfold callmsgLeft
  split <;> try rfl
  split <;> rfl

theorem rmDirection_callmsgLeft (c : MemCursor) (m : RpcMsg FlexxdrMem α) (hm : m.rmDirection = MsgType.call) :
    (callmsgLeft c m).2.rmDirection = reread c.ahead := by
  unfold callmsgLeft reread
  generalize wordsOf c.ahead = ws
  match ws with
  | [] | [_] | _ :: _ :: _ :: _ :: _ => exact hm
  | [_, _] => rfl
  | [_, d, _] => dsimp only; split <;> rfl

/-- With a word at each step, a block of four is loaded in order. -/
theorem callmsgGet_block {v p w q : Word} {r : List Byte} (h : c.ahead = words [v, p, w, q] ++ r) :
    callmsgGet (memStrm .decode (c.advance 16)) c.pos m =
      if v = 8 then .ok (true, m.setCall p w q, memStrm .decode (c.advance 16))
      else .ok (false, m.setCbRpcvers (v.setWidth 64), memStrm .decode (c.advance 16)) := by
  have h0 : c.ahead = toBytes v ++ (words [p, w, q] ++ r) := h
  have h1 : (c.advance 4).ahead = toBytes p ++ (words [w, q] ++ r) := by rw [Cursor.ahead_advance, h]; rfl
  have h2 : (c.advance 8).ahead = toBytes w ++ (words [q] ++ r) := by rw [Cursor.ahead_advance, h]; rfl
  have h3 : (c.advance 12).ahead = toBytes q ++ r := by rw [Cursor.ahead_advance, h]; rfl
  have hc (n : Nat) : (c.advance 16).cells = (c.advance n).cells := by rw [c.cells_advance, c.cells_advance]
  have g0 := iflexxdrGetLong_word .decode (c.cells_advance 16) h0
  have g1 := iflexxdrGetLong_word .decode (hc 4) h1
  have g2 := iflexxdrGetLong_word .decode (hc 8) h2
  have g3 := iflexxdrGetLong_word .decode (hc 12) h3
  rw [c.advance_advance] at g1 g2
  unfold callmsgGet
  simp only [g0, g1, g2, g3, ok_bind, pure_eq_ok]
  by_cases hv : v = 8
  · subst hv
    rfl
  · have hn : (m.setCbRpcvers (v.setWidth 64)).cbRpcvers ≠ flexrpcMsgVersion := by
      intro e
      apply hv
      rw [← setWidth_setWidth v (show 32 ≤ 64 by decide), show v.setWidth 64 = flexrpcMsgVersion from e]
      rfl
    rw [if_neg hv, if_pos hn]

theorem callmsg_block {v p w q : Word} {r : List Byte} (h : c.ahead = words [v, p, w, q] ++ r) :
    flexxdrCallmsg (memStrm .decode c) m =
      if v = 8 then .ok (true, m.setCall p w q, memStrm .decode (c.advance 16))
      else .ok (false, m.setCbRpcvers (v.setWidth 64), memStrm .decode (c.advance 16)) := by
  have hr : (16 : BitVec 32).toNat ≤ c.room := by
    unfold Cursor.room
    rw [h, List.length_append, length_words]
    show 16 ≤ _
    simp only [List.length_cons, List.length_nil]
    omega
  unfold flexxdrCallmsg
  simp only [memStrm_fOp, inline_room hr, ok_bind]
  exact callmsgGet_block m h

theorem callmsg_accepts {p w q : Word} {r : List Byte} (h : c.ahead = words (callWords p w q) ++ r) :
    flexxdrCallmsg (memStrm .decode c) m = .ok (true, m.setCall p w q, memStrm .decode (c.advance 16)) := by
  rw [callmsg_block m h, if_pos rfl]

/-- Everything else is refused. -/
theorem callmsg_refuses (h : ¬ GoodCall c.ahead) :
    flexxdrCallmsg (memStrm .decode c) m =
      .ok (false, (callmsgLeft c m).2, memStrm .decode (callmsgLeft c m).1) := by
  obtain ⟨r, hr, hw⟩ := words_wordsOf c.ahead
  have hroom : c.room = 4 * (wordsOf c.ahead).length + r.length := by
    unfold Cursor.room
    conv_lhs => rw [hw, List.length_append, length_words]
  have hshort (hl : (wordsOf c.ahead).length < 4) :
      flexxdrCallmsg (memStrm .decode c) m = callmsgFields (memStrm .decode c) m := by
    have hi : c.room < (16 : BitVec 32).toNat := by
      show c.room < 16
      omega
    unfold flexxdrCallmsg
    simp only [memStrm_fOp, inline_short hi, ok_bind]
  unfold callmsgLeft
  generalize wordsOf c.ahead = ws at hw hroom hshort
  match ws with
  | [] =>
    rw [hshort (by simp)]
    simp only [callmsgFields, uLong_short _ (show c.room < 4 by simp at hroom; omega), onField_ok, andThen_false,
      RpcMsg.setRmXid_rmXid]
  | [xid] =>
    have h0 : c.ahead = toBytes xid ++ r := by rw [hw]; simp [words]
    have h1 : (c.advance 4).room < 4 := by simp at hroom ⊢; omega
    rw [hshort (by simp)]
    simp only [callmsgFields, uLong_decode _ h0, enum_short _ h1, onField_ok, andThen_true, andThen_false,
      RpcMsg.setRmDirection_rmDirection]
  | [xid, d] =>
    have h0 : c.ahead = toBytes xid ++ (words [d] ++ r) := by rw [hw]; rfl
    have h1 : (c.advance 4).ahead = toBytes d ++ r := by rw [Cursor.ahead_advance, hw]; rfl
    have h2 : (c.advance 8).room < 4 := by simp at hroom ⊢; omega
    rw [hshort (by simp)]
    simp only [callmsgFields, uLong_decode _ h0, enum_decode _ h1, c.advance_advance, Nat.reduceAdd, uLong_short _ h2,
      onField_ok, andThen_true, andThen_false, RpcMsg.setCbRpcvers_cbRpcvers]
    split <;> rfl
  | [xid, d, v] =>
    have h0 : c.ahead = toBytes xid ++ (words [d, v] ++ r) := by rw [hw]; rfl
    have h1 : (c.advance 4).ahead = toBytes d ++ (words [v] ++ r) := by rw [Cursor.ahead_advance, hw]; rfl
    have h2 : (c.advance 8).ahead = toBytes v ++ r := by rw [Cursor.ahead_advance, hw]; rfl
    have h3 : (c.advance 12).room < 4 := by simp at hroom ⊢; omega
    rw [hshort (by simp)]
    simp only [callmsgFields, uLong_decode _ h0, enum_decode _ h1, c.advance_advance, Nat.reduceAdd, uLong_decode _ h2,
      uLong_short _ h3, onField_ok, andThen_true, andThen_false, RpcMsg.setCbProg_cbProg,
      RpcMsg.rmDirection_setRmDirection]
    by_cases hd : d = MsgType.call
    · rw [if_pos hd, if_neg (fun e => e hd)]
      split <;> rfl
    · rw [if_neg hd, if_pos hd]
  | v :: p :: w :: q :: ws =>
    have hb : c.ahead = words [v, p, w, q] ++ (words ws ++ r) := by
      rw [hw, ← List.append_assoc, ← words_append]
      rfl
    have hv : v ≠ 8 := by
      rintro rfl
      exact h ⟨p, w, q, _, hb⟩
    rw [callmsg_block m hb, if_neg hv]

end Decode

/-! ## Encoding into a memory stream -/

section Encode

variable {c : MemCursor}

/-- A word stored through the pointer into a block of `n` bytes, after `bs` have been. -/
theorem iflexxdrPutLong_block (bs : List Byte) {n : Nat} (hb : bs.length + 4 ≤ n) (hn : n ≤ c.room) (v : ULong) :
    iflexxdrPutLong (memStrm .encode ((c.write bs).advance (n - bs.length))) (c.pos + bs.length) v =
      .ok (c.pos + (bs ++ toBytes (v.setWidth 32)).length, memStrm .encode
        ((c.write (bs ++ toBytes (v.setWidth 32))).advance (n - (bs ++ toBytes (v.setWidth 32)).length))) := by
  have hr : (c.write bs).room = c.room - bs.length := c.room_write bs
  have hl : (bs ++ toBytes (v.setWidth 32)).length = bs.length + 4 := by rw [List.length_append, length_toBytes]
  have hw : Block.write (c.write bs).cells (c.write bs).pos (toBytes (v.setWidth 32)) =
      some (c.write (bs ++ toBytes (v.setWidth 32))).cells := by
    rw [(c.write bs).write_cells (by rw [length_toBytes]; omega), Cursor.write_write]
  have hs : ((memStrm .encode ((c.write bs).advance (n - bs.length))).strm.store (c.pos + bs.length) (v.setWidth 32)) =
      .ok (memStrm .encode ((c.write (bs ++ toBytes (v.setWidth 32))).advance (n - (bs.length + 4)))).strm := by
    simp only [FlexxdrMem.store, FlexxdrMem.poke, memStrm, Cursor.cells_advance]
    rw [← c.pos_write bs, hw]
    have hr' : (c.write (bs ++ toBytes (v.setWidth 32))).room = c.room - (bs.length + 4) := by
      rw [Cursor.room_write, hl]
    have hp' : (c.write (bs ++ toBytes (v.setWidth 32))).pos = c.pos + (bs.length + 4) := by rw [c.pos_write, hl]
    rw [Cursor.pos_advance _ (by omega), Cursor.pos_advance _ (by omega), Cursor.room_advance, Cursor.room_advance,
      c.pos_write, hp', hr, hr']
    have hpos : c.pos + bs.length + (n - bs.length) = c.pos + (bs.length + 4) + (n - (bs.length + 4)) := by omega
    have hroom : c.room - bs.length - (n - bs.length) = c.room - (bs.length + 4) - (n - (bs.length + 4)) := by omega
    rw [hpos, hroom]
  rw [hl]
  show ((memStrm .encode ((c.write bs).advance (n - bs.length))).strm.store (c.pos + bs.length)
    (v.setWidth 32)).mapError Fault.inProc >>= _ = _
  rw [hs]
  rfl

/-- The words that `flexxdr_callmsg` stores into a block. -/
def RpcMsg.callmsgWords (m : RpcMsg σ α) : List Word :=
  [m.cbRpcvers.setWidth 32, m.cbProg.setWidth 32, m.cbVers.setWidth 32, m.cbProc.setWidth 32]

/-- A block is filled, whatever does not fit in its words; with another version only its first word is. -/
theorem callmsgPut_block (m : RpcMsg FlexxdrMem α) (hr : 16 ≤ c.room) :
    callmsgPut (memStrm .encode (c.advance 16)) c.pos m =
      if m.cbRpcvers = flexrpcMsgVersion then .ok (true, m, memStrm .encode (c.write (words m.callmsgWords)))
      else .ok (false, m, memStrm .encode ((c.write (toBytes (m.cbRpcvers.setWidth 32))).advance 12)) := by
  have p₀ := iflexxdrPutLong_block [] (show 4 ≤ 16 by decide) hr m.cbRpcvers
  have p₁ := iflexxdrPutLong_block (toBytes (m.cbRpcvers.setWidth 32)) (show 8 ≤ 16 by decide) hr m.cbProg
  have p₂ := iflexxdrPutLong_block (toBytes (m.cbRpcvers.setWidth 32) ++ toBytes (m.cbProg.setWidth 32))
    (show 12 ≤ 16 by decide) hr m.cbVers
  have p₃ := iflexxdrPutLong_block (toBytes (m.cbRpcvers.setWidth 32) ++ toBytes (m.cbProg.setWidth 32) ++
    toBytes (m.cbVers.setWidth 32)) (show 16 ≤ 16 by decide) hr m.cbProc
  simp only [Cursor.write_nil, List.length_nil, Nat.add_zero, List.nil_append, Nat.sub_zero] at p₀
  unfold callmsgPut
  simp only [p₀, ok_bind, p₁, p₂, p₃, pure_eq_ok]
  by_cases hv : m.cbRpcvers = flexrpcMsgVersion
  · rw [if_pos hv, if_neg (not_not.mpr hv)]
    exact congrArg (fun c => Except.ok (true, m, memStrm .encode c)) (Cursor.advance_zero _)
  · rw [if_neg hv, if_pos hv]
    rfl

theorem callmsg_encode_block (m : RpcMsg FlexxdrMem α) (hr : 16 ≤ c.room) :
    flexxdrCallmsg (memStrm .encode c) m =
      if m.cbRpcvers = flexrpcMsgVersion then .ok (true, m, memStrm .encode (c.write (words m.callmsgWords)))
      else .ok (false, m, memStrm .encode ((c.write (toBytes (m.cbRpcvers.setWidth 32))).advance 12)) := by
  have hi : (16 : BitVec 32).toNat ≤ c.room := hr
  unfold flexxdrCallmsg
  simp only [memStrm_fOp, inline_room hi, ok_bind]
  exact callmsgPut_block m hr

end Encode

end Cornflakes.Flexrpc

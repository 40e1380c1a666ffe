import Cornflakes.Cornflake

/-!
# `cornflake_deserialize`, by the first words ahead

On a memory stream the function is determined by the first words: fewer than two are refused (`deserialize_short`), a
direction other than CALL goes straight to the reply branch (`deserialize_other`), and after CALL a schema is looked up
and called (`deserialize_call`), under the key on the wire if the header is a good one (`select_good`), else under the
key that the record had before (`select_stale`).
-/

set_option autoImplicit false

namespace Cornflakes

open Wire Flexrpc

variable {α : Type}

/-! ## The header -/

/-- The record with a transaction id and a direction decoded into it. -/
def headed {σ : Type} (cf : Cflake σ α) (xid d : Word) : Cflake σ α :=
  cf.setMsg ((cf.msg.setRmXid (xid.setWidth 64)).setRmDirection d)

section Cases

variable {R : Registry FlexxdrMem α} {c : MemCursor} {cf : Cflake FlexxdrMem α}

theorem ahead_header {xid d : Word} {rest : List Byte} (h : c.ahead = words [xid, d] ++ rest) :
    (c.advance 8).ahead = rest := by
  rw [Cursor.ahead_advance, h]
  rfl

theorem peek_decode {xid d : Word} {rest : List Byte} (h : c.ahead = words [xid, d] ++ rest) :
    cornflakePeekHeader (memStrm .decode c) cf = .ok (true, headed cf xid d, memStrm .decode (c.advance 8)) := by
  have h0 : c.ahead = toBytes xid ++ (words [d] ++ rest) := h
  have h1 : (c.advance 4).ahead = toBytes d ++ rest := by rw [Cursor.ahead_advance, h]; rfl
  simp only [cornflakePeekHeader, uLong_decode _ h0, enum_decode _ h1, onField_ok, andThen_true, c.advance_advance]
  rfl

/-- A header cut short is refused, and the places of the body are not touched. -/
theorem peek_short (cf : Cflake FlexxdrMem α) (h : c.room < 8) : ∃ cf' c', cf'.msg.body = cf.msg.body ∧
    cornflakePeekHeader (memStrm .decode c) cf = .ok (false, cf', memStrm .decode c') := by
  obtain hs | ⟨xid, r, hr⟩ := word_cases c.ahead
  · refine ⟨cf, c, rfl, ?_⟩
    simp only [cornflakePeekHeader, uLong_short _ hs, onField_ok, andThen_false]
    rfl
  · have h1 : (c.advance 4).room < 4 := by rw [Cursor.room_advance]; omega
    refine ⟨cf.setMsg (cf.msg.setRmXid (xid.setWidth 64)), c.advance 4, rfl, ?_⟩
    simp only [cornflakePeekHeader, uLong_decode _ hr, enum_short _ h1, onField_ok, andThen_true]
    rfl

/-! ## The whole function, by its first words -/

theorem deserialize_short (R : Registry FlexxdrMem α) (cf : Cflake FlexxdrMem α) (h : c.room < 8) :
    ∃ cf' c', cf'.msg.body = cf.msg.body ∧
      cornflakeDeserialize R (memStrm .decode c) cf = .ok (false, cf', memStrm .decode c') := by
  obtain ⟨cf', c', hb, hp⟩ := peek_short cf h
  exact ⟨cf', c', hb, by rw [cornflakeDeserialize, hp, andThen_false]⟩

theorem deserialize_other {xid d : Word} {rest : List Byte} (h : c.ahead = words [xid, d] ++ rest)
    (hd : d ≠ MsgType.call) :
    cornflakeDeserialize R (memStrm .decode c) cf =
      deserializeReply (memStrm .decode (c.advance 8)) (headed cf xid d) := by
  rw [cornflakeDeserialize, peek_decode h, andThen_true,
    if_neg (show (headed cf xid d).msg.rmDirection ≠ MsgType.call from hd)]

theorem deserialize_call (R : Registry FlexxdrMem α) (cf : Cflake FlexxdrMem α) {xid : Word} {rest : List Byte}
    (h : c.ahead = words [xid, MsgType.call] ++ rest) :
    cornflakeDeserialize R (memStrm .decode c) cf =
      (selectSchema R (memStrm .decode (c.advance 8)) (headed cf xid MsgType.call) >>= fun (schema, cf, X) =>
        andThen (onField (callProc schema X cf.args) cf.setArgs) deserializeReply) := by
  rw [cornflakeDeserialize, peek_decode h, andThen_true,
    if_pos (show (headed cf xid MsgType.call).msg.rmDirection = MsgType.call from rfl)]

/-! ## The schema that is looked up -/

/-- The schema that a lookup under the old key of the record gives after a refused call header. -/
def staleSchema {σ : Type} (R : Registry σ α) (m : RpcMsg σ α) (rest : List Byte) : Option (FlexxdrProc σ α) :=
  cornflakeGetSchema R m.cbProg m.cbVers m.cbProc (reread rest)

/-- The schema registered for a key on the wire. -/
def wireSchema {σ : Type} (R : Registry σ α) (prog vers proc : Word) : Option (FlexxdrProc σ α) :=
  cornflakeGetSchema R (prog.setWidth 64) (vers.setWidth 64) (proc.setWidth 64) MsgType.call

theorem words_call (xid prog vers proc : Word) (rest : List Byte) :
    words [xid, MsgType.call, 8, prog, vers, proc] ++ rest =
      words [xid, MsgType.call] ++ (words (callWords prog vers proc) ++ rest) := by
  rw [← List.append_assoc, ← words_append]
  rfl

/-- A good call header selects the schema of the key on the wire, at the first byte of the arguments. -/
theorem select_good {xid prog vers proc : Word} {rest : List Byte}
    (h : c.ahead = words [xid, MsgType.call] ++ (words (callWords prog vers proc) ++ rest)) :
    selectSchema R (memStrm .decode (c.advance 8)) (headed cf xid MsgType.call) =
      .ok (wireSchema R prog vers proc,
        cf.setMsg (((cf.msg.setRmXid (xid.setWidth 64)).setRmDirection MsgType.call).setCall prog vers proc),
        memStrm .decode (c.advance 24)) := by
  unfold selectSchema
  rw [callmsg_accepts _ (ahead_header h)]
  simp only [ok_bind, pure_eq_ok, RpcMsg.cbProg_setCall, RpcMsg.cbVers_setCall, RpcMsg.cbProc_setCall,
    RpcMsg.rmDirection_setCall, c.advance_advance]
  rfl

/-- Where a refused call header leaves the stream and the record. -/
def staleLeft (c : MemCursor) (cf : Cflake FlexxdrMem α) (xid : Word) : MemCursor × RpcMsg FlexxdrMem α :=
  callmsgLeft (c.advance 8) (headed cf xid MsgType.call).msg

/-- A bad one selects a schema by the fields that the record had before. -/
theorem select_stale {xid : Word} {rest : List Byte} (h : c.ahead = words [xid, MsgType.call] ++ rest)
    (hb : ¬ GoodCall rest) :
    selectSchema R (memStrm .decode (c.advance 8)) (headed cf xid MsgType.call) =
      .ok (staleSchema R cf.msg rest, cf.setMsg (staleLeft c cf xid).2, memStrm .decode (staleLeft c cf xid).1) := by
  have ha : (c.advance 8).ahead = rest := ahead_header h
  have hd := rmDirection_callmsgLeft (c.advance 8) (headed cf xid MsgType.call).msg rfl
  have hk : (staleLeft c cf xid).2.body = cf.msg.body := body_callmsgLeft _ _
  rw [ha] at hd
  unfold selectSchema
  rw [callmsg_refuses _ (by rw [ha]; exact hb)]
  simp only [ok_bind, pure_eq_ok, hd, staleSchema]
  simp only [staleLeft] at hk
  simp only [RpcMsg.cbProg, RpcMsg.cbVers, RpcMsg.cbProc, hk]
  rfl

/-! ## The reply branch -/

theorem deserializeReply_eq {σ : Type} {X : Flexxdr σ} {cf : Cflake σ α} (h : cf.msg.rmDirection = MsgType.reply) :
    deserializeReply X cf = onField (flexxdrReplymsg X cf.msg) cf.setMsg := if_pos h

theorem deserializeReply_reply {σ : Type} {X : Flexxdr σ} {cf : Cflake σ α} (h : cf.msg.rmDirection = MsgType.reply)
    (b : Bool) : Returns (deserializeReply X cf) b ↔ Returns (flexxdrReplymsg X cf.msg) b := by
  rw [deserializeReply_eq h, returns_onField]

theorem deserializeReply_other {σ : Type} {X : Flexxdr σ} {cf : Cflake σ α} (h : cf.msg.rmDirection ≠ MsgType.reply) :
    deserializeReply X cf = .ok (true, cf, X) := if_neg h

end Cases

end Cornflakes

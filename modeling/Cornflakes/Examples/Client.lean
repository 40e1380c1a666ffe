import Cornflakes.Examples.Server

/-!
# The client of the examples (`cf_client.c`)

The client sends one call (`clientSend`), waits for bytes and shows what it finds in its buffer for the name
(`clientReceive`). The results of `cornflake_serialize` and of `cornflake_deserialize` are dropped.

- `clientSend_fits`, `clientSend_refused`: a call is sent as far as it fits into the buffer, and nothing at all is sent if
  the transaction id does not fit in a word;
- `clientReceive_iff`: what is in the buffer is shown unless the second word is CALL or the name runs over its buffer.
-/

set_option autoImplicit false

namespace Cornflakes.Examples

open Wire Flexrpc

/-- What the client finds in its storage: the buffer of the handle, the buffer from `malloc`, and on the stack the number,
the two records and the address of `reply_args`. -/
structure ClientStorage where
  buf : Buffer
  name : List Byte
  result : Word
  msg : RpcMsg FlexxdrMem OatsArgs
  reply : RpcMsg FlexxdrMem OatsArgs
  replyArgs : ULong
  length_name : name.length = 36

/-! ## The call -/

/-- The record that `prepare_call` fills. -/
def callRecord (msg : RpcMsg FlexxdrMem OatsArgs) (name title : List Byte) (ixd : ULong) : Cflake FlexxdrMem OatsArgs :=
  let msg := ((msg.setRmXid ixd).setCbRpcvers 8).setRmDirection MsgType.call
  ⟨((msg.setCbProg OATSPROGRAM).setCbVers PRINTMESSAGEVER).setCbProc PRINTMESSAGE, .call ⟨some name, some title⟩⟩

def prepareCall (O : Oats) (flexxdr : Flexxdr FlexxdrMem) (msg : RpcMsg FlexxdrMem OatsArgs) (name title : List Byte)
    (ixd : ULong) : Except Fault (Flexxdr FlexxdrMem) := do
  let (_, _, flexxdr) ← cornflakeSerialize O.registry flexxdr (callRecord msg name title ixd)
  return flexxdr

/-- The handle after `prepare_call`. -/
def clientSend (O : Oats) (st : ClientStorage) (name title : List Byte) (ixd : ULong) :
    Except Fault (Flexxdr FlexxdrMem) :=
  prepareCall O (flexxdrmemCreate st.buf.bytes (.ofNat 32 bufSize) .encode) st.msg name title ixd

/-- The call `xid` for a name and a title, as far as it fits. -/
def callWire (xid : Word) (name title : List Byte) : List Byte :=
  words (serviceWords xid) ++ (callArgsPart name title 56).2

theorem length_callArgsPart_le (name title : List Byte) (room : Nat) : (callArgsPart name title room).2.length ≤ room := by
  have hn := length_stringPart_le maxStringSize name room
  unfold callArgsPart
  split
  next h =>
    rw [h] at hn
    exact hn
  next bs h =>
    rw [h] at hn
    have ht := length_stringPart_le maxStringSize title (room - bs.length)
    simp only [List.length_append] at hn ht ⊢
    omega

theorem length_callWire_le (xid : Word) (name title : List Byte) : (callWire xid name title).length ≤ bufSize := by
  have h := length_callArgsPart_le name title 56
  have hw : (words (serviceWords xid)).length = 24 := length_words _
  rw [callWire, List.length_append, hw, bufSize]
  omega

section Send

variable {O : Oats} {st : ClientStorage} {name title nr tr : List Byte} {ixd : ULong}

theorem clientSend_fits (hn : 0 ∉ name) (ht : 0 ∉ title) (h : ixd.toNat < 2 ^ 32) :
    clientSend O st (name ++ 0 :: nr) (title ++ 0 :: tr) ixd =
      .ok (memStrm .encode (st.buf.start.write (callWire (ixd.setWidth 32) name title))) := by
  generalize hcf : callRecord st.msg (name ++ 0 :: nr) (title ++ 0 :: tr) ixd = cf
  have hd : cf.msg.rmDirection = MsgType.call := hcf ▸ rfl
  have hargs : cf.args = .call ⟨some (name ++ 0 :: nr), some (title ++ 0 :: tr)⟩ := hcf ▸ rfl
  have hprog : cf.msg.cbProg = OATSPROGRAM := hcf ▸ rfl
  have hvers : cf.msg.cbVers = PRINTMESSAGEVER := hcf ▸ Slot.toWord_store _ _
  have hproc : cf.msg.cbProc = PRINTMESSAGE := hcf ▸ Slot.toWord_store _ _
  have hxid : cf.msg.rmXid = ixd := hcf ▸ rfl
  have hf : cf.msg.HeaderFits := by
    refine ⟨by rw [hxid]; exact h, ?_, ?_⟩
    · rw [hprog]
      decide
    · rw [hvers]
      decide
  have hw : callMessage cf.msg = serviceWords (ixd.setWidth 32) := by
    rw [callMessage, RpcMsg.headerWords, hxid, hprog, hvers, hproc]
    rfl
  have hl : (words (serviceWords (ixd.setWidth 32))).length = 24 := length_words _
  have hroom : (st.buf.start.write (words (serviceWords (ixd.setWidth 32)))).room = 56 := by
    rw [Cursor.room_write, Buffer.room_start, hl]
    rfl
  have hs := serialize_whole (R := O.registry) hd hf (show 24 ≤ st.buf.start.room by rw [Buffer.room_start]; decide)
  have hpart := callArgs_part O.A hn ht nr tr (st.buf.start.write (words (serviceWords (ixd.setWidth 32))))
  have hcode : callProc (some O.callSchema) (memStrm .encode (st.buf.start.write (words (serviceWords (ixd.setWidth 32)))))
      (.call ⟨some (name ++ 0 :: nr), some (title ++ 0 :: tr)⟩) = _ := callProc_ok (congrArg (onField · OatsArgs.call) hpart)
  rw [hprog, hvers, hproc, Oats.getSchema_call, hw, hargs] at hs
  dsimp only at hs
  rw [hcode, hroom, Cursor.write_write] at hs
  rw [clientSend, Buffer.create, prepareCall, hcf, hs]
  rfl

/-- Nothing is sent under a transaction id that does not fit in a word. -/
theorem clientSend_refused (h : ¬ ixd.toNat < 2 ^ 32) :
    clientSend O st name title ixd = .ok (memStrm .encode st.buf.start) := by
  generalize hcf : callRecord st.msg name title ixd = cf
  have hd : cf.msg.rmDirection = MsgType.call := hcf ▸ rfl
  have hx : ¬ (cf.msg.rmXid.toNat < 2 ^ 32 ∧ 4 ≤ st.buf.start.room) := fun hu => h (by rw [← hcf] at hu; exact hu.1)
  have hh : flexxdrCallhdr (memStrm .encode st.buf.start) cf.msg =
      .ok (false, callhdrMsg cf.msg, memStrm .encode st.buf.start) := by
    have hu : flexxdrULong (memStrm .encode st.buf.start) (callhdrMsg cf.msg).rmXid = _ := uLong_refused hx
    rw [flexxdrCallhdr, memStrm_fOp, if_pos rfl, callhdrFields, hu]
    rfl
  rw [clientSend, Buffer.create, prepareCall, hcf, cornflakeSerialize, if_pos hd, serializeCall, hh]
  rfl

end Send

/-! ## The reply -/

/-- The record that `read_reply` prepares; its `cf.args` is the address of a variable on the stack. -/
def resultRecord (O : Oats) (rply : RpcMsg FlexxdrMem OatsArgs) (replyArgs : ULong) (name : List Byte) (result : Word) :
    Cflake FlexxdrMem OatsArgs :=
  let proc := cornflakeGetSchema O.registry OATSPROGRAM PRINTMESSAGEVER PRINTMESSAGE MsgType.reply
  ⟨rply.setBody { rply.body with low := .ptr replyArgs (.reply ⟨some name, result⟩), high := procSlot proc }, .other⟩

/-- The buffer for the name, as the place of the results has it; with another value in that place nothing was stored
through it, and the buffer has `name` as before. -/
def nameAt {σ : Type} (name : List Byte) : Slot σ OatsArgs → List Byte
  | .ptr _ (.reply ⟨some name, _⟩) => name
  | _ => name

/-- The buffer for the name after `read_reply`. -/
def readReply (O : Oats) (flexxdr : Flexxdr FlexxdrMem) (name : List Byte) (result : Word)
    (rply : RpcMsg FlexxdrMem OatsArgs) (replyArgs : ULong) : Except Fault (List Byte) := do
  let (_, cf, _) ← cornflakeDeserialize O.registry flexxdr (resultRecord O rply replyArgs name result)
  return nameAt name cf.msg.body.low

/-- What the client shows when `bs` was read into its buffer after it was sent. -/
def clientReceive (O : Oats) (st : ClientStorage) (flexxdrs : Flexxdr FlexxdrMem) (bs : List Byte) :
    Except Fault (Option (List Byte)) := do
  let name ← readReply O (readInto (flipFlexxdr flexxdrs .decode) bs) st.name st.result st.reply st.replyArgs
  return printString name

/-- What the client makes of its buffer: what it shows. -/
inductive Shows (st : ClientStorage) (buf : Buffer) : Option (List Byte) → Prop
  | results {xid : Word} {rest name r : List Byte} {result : Word} {ok : Bool}
      (bytes : buf.bytes = words [xid, MsgType.reply, ReplyStat.msgAccepted, AcceptStat.success] ++ rest)
      (args : replyArgsInto st.name st.result rest = some (ok, (name, result), r)) : Shows st buf (printString name)
  | other {xid d : Word} {rest : List Byte} (bytes : buf.bytes = words [xid, d] ++ rest) (call : d ≠ MsgType.call)
      (results : ∀ r, d = MsgType.reply → rest ≠ words [ReplyStat.msgAccepted, AcceptStat.success] ++ r) :
      Shows st buf (printString st.name)

section Receive

variable {O : Oats} {st : ClientStorage} {c : MemCursor} {rply : RpcMsg FlexxdrMem OatsArgs} {addr : ULong}
  {name : List Byte} {result : Word} {ar : ReplyBody FlexxdrMem OatsArgs}

theorem words_four (a b c d : Word) (r : List Byte) : words [a, b, c, d] ++ r = words [a, b] ++ (words [c, d] ++ r) := by
  rw [words_pair, List.append_assoc]

theorem exists_error_bind {γ δ : Type} {r : Except Fault γ} {k : γ → Except Fault δ} (h : ∃ f, r = .error f) :
    ∃ f, (r >>= k) = .error f := by
  obtain ⟨f, rfl⟩ := h
  exact ⟨f, rfl⟩

/-- It returns, and leaves the buffer for the name as it is. -/
def Settles (name : List Byte) (r : Except Fault (Outcome FlexxdrMem (ReplyBody FlexxdrMem OatsArgs))) : Prop :=
  ∃ b ar X, r = .ok (b, ar, X) ∧ nameAt name ar.low = name

theorem nameAt_store {s : Slot FlexxdrMem OatsArgs} (h : nameAt name s = name) (w : ULong) :
    nameAt name (s.store w) = name := by
  unfold Slot.store
  split
  · exact h
  · rfl

theorem versions_settles (h : nameAt name ar.low = name) : Settles name (flexxdrVersions (memStrm .decode c) ar) := by
  have hret : Returns (flexxdrVersions (memStrm .decode c) ar) (decide (8 ≤ c.room)) := (versions_returns _).mpr rfl
  obtain ⟨a, X, hr⟩ := hret
  have hl : Leaves (fun ar : ReplyBody FlexxdrMem OatsArgs => nameAt name ar.low = name)
      (flexxdrVersions (memStrm .decode c) ar) := by
    refine Leaves.andThen (Leaves.onField (Leaves.any _) fun v _ => nameAt_store h v) fun X ar har => ?_
    exact Leaves.onField (Leaves.any _) fun _ _ => har
  exact ⟨_, a, X, hr, hl _ a X hr⟩

theorem acceptedArm_settles (h : nameAt name ar.low = name) (hs : ar.stat ≠ AcceptStat.success) :
    Settles name (acceptedArm (memStrm .decode c) ar) := by
  unfold acceptedArm
  rw [if_neg hs]
  split
  · exact versions_settles h
  · exact ⟨true, ar, _, rfl, h⟩

theorem rejectedArm_settles (h : nameAt name ar.low = name) : Settles name (rejectedArm (memStrm .decode c) ar) := by
  unfold rejectedArm
  split
  · exact versions_settles h
  · exact ⟨false, ar, _, rfl, h⟩

/-- A reply without results leaves the buffer for the name alone. -/
theorem replymsg_settles {m : RpcMsg FlexxdrMem OatsArgs} (hd : m.rmDirection = MsgType.reply)
    (h : nameAt name m.body.low = name) (hr : 8 ≤ c.room)
    (hs : ∀ r, c.ahead ≠ words [ReplyStat.msgAccepted, AcceptStat.success] ++ r) :
    ∃ b m' X, flexxdrReplymsg (memStrm .decode c) m = .ok (b, m', X) ∧ nameAt name m'.body.low = name := by
  rw [congrFun (replymsg_reply hd) _]
  rcases two_words_cases c.ahead with hc | ⟨st, s, r, ha⟩
  · exact absurd hr (Nat.not_le.mpr hc)
  have hlow : nameAt name (m.body.setStat s).low = name := h
  have hstat : (m.body.setStat s).stat = s := ReplyBody.stat_setStat _ _
  rw [replyUnion_words _ ha]
  by_cases hacc : st = ReplyStat.msgAccepted
  · subst hacc
    have hne : (m.body.setStat s).stat ≠ AcceptStat.success := by
      rw [hstat]
      rintro rfl
      exact hs r ha
    obtain ⟨b, ar, X, harm, har⟩ := acceptedArm_settles hlow hne
    rw [if_pos rfl, harm]
    exact ⟨b, _, X, rfl, har⟩
  · rw [if_neg hacc]
    by_cases hden : st = ReplyStat.msgDenied
    · obtain ⟨b, ar, X, harm, har⟩ := rejectedArm_settles hlow
      rw [if_pos hden, harm]
      exact ⟨b, _, X, rfl, har⟩
    · rw [if_neg hden]
      exact ⟨false, _, _, rfl, h⟩

/-- A call stops the client: the schema that it finds is called on the address of a variable. -/
theorem readReply_call {xid : Word} {rest : List Byte} (ha : c.ahead = words [xid, MsgType.call] ++ rest) :
    ∃ f, readReply O (memStrm .decode c) name result rply addr = .error f := by
  have hstop {schema : Option (FlexxdrProc FlexxdrMem OatsArgs)} {prog vers proc : ULong} {d : Word}
      (h : cornflakeGetSchema (O.registry : Registry FlexxdrMem OatsArgs) prog vers proc d = schema)
      (X : Flexxdr FlexxdrMem) (cf : Cflake FlexxdrMem OatsArgs) (hargs : cf.args = .other) :
      ∃ f, andThen (onField (callProc schema X cf.args) cf.setArgs) deserializeReply = .error f := by
    obtain ⟨f, hf⟩ := Oats.callProc_other h X
    rw [hargs, hf]
    exact ⟨f, rfl⟩
  unfold readReply
  rw [deserialize_call _ _ ha]
  by_cases hg : GoodCall rest
  · obtain ⟨prog, vers, proc, r, rfl⟩ := hg
    rw [select_good ha, ok_bind]
    exact exists_error_bind (hstop rfl _ _ rfl)
  · rw [select_stale ha hg, ok_bind]
    exact exists_error_bind (hstop rfl _ _ rfl)

/-- Results are decoded into the buffer for the name. -/
theorem readReply_results {xid : Word} {rest : List Byte}
    (ha : c.ahead = words [xid, MsgType.reply, ReplyStat.msgAccepted, AcceptStat.success] ++ rest) :
    readReply O (memStrm .decode c) name result rply addr =
      match replyArgsInto name result rest with
      | none => .error (.inProc .outOfBounds)
      | some (_, (name, _), _) => .ok name := by
  generalize hcf : resultRecord O rply addr name result = cf
  have hlow : cf.msg.body.low = .ptr addr (.reply ⟨some name, result⟩) := hcf ▸ rfl
  have hhigh : cf.msg.body.high = .proc O.replySchema := by
    subst hcf
    exact congrArg procSlot Oats.getSchema_reply
  have ha' : c.ahead = words [xid, MsgType.reply] ++ (words [ReplyStat.msgAccepted, AcceptStat.success] ++ rest) := by
    rw [ha, ← List.append_assoc, ← words_append]
    rfl
  have h8 : (c.advance 8).ahead = words [ReplyStat.msgAccepted, AcceptStat.success] ++ rest := ahead_header ha'
  have h16 : ((c.advance 8).advance 8).ahead = rest := ahead_header h8
  have hd : (headed cf xid MsgType.reply).msg.rmDirection = MsgType.reply := rfl
  have hstat : (cf.msg.body.setStat AcceptStat.success).stat = AcceptStat.success := ReplyBody.stat_setStat _ _
  have hres : flexxdrResults (memStrm .decode ((c.advance 8).advance 8)) (cf.msg.body.setStat AcceptStat.success) =
      _ := results_eq hhigh hlow
  unfold readReply
  rw [hcf, deserialize_other ha' (by decide), deserializeReply_eq hd, congrFun (replymsg_reply hd) _]
  show (onField (onField (flexxdrUnion _ _ cf.msg.body _ _) _) _ >>= _) = _
  rw [replyUnion_words _ h8, if_pos rfl, congrFun (acceptedArm_success hstat) _, hres]
  show (onField (onField (onField (onField ((onField (replyArgs O.A _ _) _).mapError Fault.inProc) _) _) _) _ >>= _) = _
  rw [replyArgs_into, h16]
  rcases replyArgsInto name result rest with _ | ⟨ok, ⟨name', result'⟩, r⟩
  · rfl
  · rfl

/-- Everything else that is no call leaves the buffer alone. -/
theorem readReply_other {xid d : Word} {rest : List Byte} (ha : c.ahead = words [xid, d] ++ rest) (hd : d ≠ MsgType.call)
    (hr : 8 ≤ rest.length) (hs : ∀ r, d = MsgType.reply → rest ≠ words [ReplyStat.msgAccepted, AcceptStat.success] ++ r) :
    readReply O (memStrm .decode c) name result rply addr = .ok name := by
  generalize hcf : resultRecord O rply addr name result = cf
  have hlow : nameAt name cf.msg.body.low = name := hcf ▸ rfl
  have h8 : (c.advance 8).ahead = rest := ahead_header ha
  unfold readReply
  rw [hcf, deserialize_other ha hd]
  by_cases hrep : d = MsgType.reply
  · subst hrep
    have hm : (headed cf xid MsgType.reply).msg.rmDirection = MsgType.reply := rfl
    have hl : nameAt name (headed cf xid MsgType.reply).msg.body.low = name := hlow
    obtain ⟨b, m', X, hrm, hn⟩ := replymsg_settles hm hl (show 8 ≤ (c.advance 8).room by rw [Cursor.room, h8]; exact hr)
      fun r he => hs r rfl (h8.symm.trans he)
    rw [deserializeReply_eq hm, hrm, onField_ok, ok_bind]
    exact congrArg Except.ok hn
  · rw [deserializeReply_other (show (headed cf xid d).msg.rmDirection ≠ MsgType.reply from hrep), ok_bind]
    exact congrArg Except.ok hlow

end Receive

section Whole

variable {O : Oats} {st : ClientStorage}

/-- The function, from the buffer after `read` on. -/
theorem clientReceive_eq {b : Buffer} {c : MemCursor} (hc : c.cells = b.bytes) (op : FlexxdrOp) {bs : List Byte}
    (h : bs.length ≤ bufSize) : clientReceive O st (memStrm op c) bs =
      readReply O (memStrm .decode (b.zeroed.fill bs h).start) st.name st.result st.reply st.replyArgs >>= fun name =>
        .ok (printString name) := by
  rw [clientReceive, Buffer.flipFlexxdr_memStrm _ hc, Buffer.readInto_start]
  rfl

/-- A call is not shown. -/
theorem not_shows_call {buf : Buffer} {xid : Word} {rest : List Byte} (h : buf.bytes = words [xid, MsgType.call] ++ rest)
    (s : Option (List Byte)) : ¬ Shows st buf s := by
  rintro (⟨bytes, -⟩ | ⟨bytes, call, -⟩)
  · obtain ⟨-, he, -⟩ := two_words_inj (h.symm.trans (bytes.trans (words_four _ _ _ _ _)))
    exact absurd he (by decide)
  · obtain ⟨-, rfl, -⟩ := two_words_inj (h.symm.trans bytes)
    exact call rfl

/-- **What the client shows.** -/
theorem clientReceive_iff (O : Oats) (st : ClientStorage) {b : Buffer} {c : MemCursor} (hc : c.cells = b.bytes)
    (op : FlexxdrOp) {bs : List Byte} (h : bs.length ≤ bufSize) (s : Option (List Byte)) :
    clientReceive O st (memStrm op c) bs = .ok s ↔ Shows st (b.zeroed.fill bs h) s := by
  have hl := (b.zeroed.fill bs h).length_bytes
  rw [clientReceive_eq hc op h]
  rcases two_words_cases (b.zeroed.fill bs h).bytes with hs | ⟨xid, d, rest, ha⟩
  · rw [hl, bufSize] at hs
    omega
  have hstart : (b.zeroed.fill bs h).start.ahead = words [xid, d] ++ rest := ha
  by_cases hcall : d = MsgType.call
  · subst hcall
    have hf : ∃ f, readReply O (memStrm .decode (b.zeroed.fill bs h).start) st.name st.result st.reply st.replyArgs =
        .error f := readReply_call hstart
    obtain ⟨f, hf⟩ := hf
    rw [hf]
    exact iff_of_false (by rintro ⟨⟩) (not_shows_call ha s)
  by_cases hres : d = MsgType.reply ∧ ∃ r, rest = words [ReplyStat.msgAccepted, AcceptStat.success] ++ r
  · obtain ⟨rfl, r, rfl⟩ := hres
    rw [← words_four] at ha hstart
    rw [readReply_results hstart]
    constructor
    · intro hp
      rcases hi : replyArgsInto st.name st.result r with _ | ⟨ok, ⟨name', result'⟩, r'⟩
      · rw [hi] at hp
        cases hp
      · rw [hi] at hp
        cases hp
        exact .results ha hi
    · rintro (⟨bytes, args⟩ | ⟨bytes, -, results⟩)
      · rw [words_four] at bytes ha
        obtain ⟨-, -, hr⟩ := two_words_inj (ha.symm.trans bytes)
        obtain ⟨-, -, rfl⟩ := two_words_inj hr
        rw [args]
        rfl
      · rw [words_four] at ha
        obtain ⟨-, rfl, rfl⟩ := two_words_inj (ha.symm.trans bytes)
        exact absurd rfl (results r rfl)
  · have hne : ∀ r, d = MsgType.reply → rest ≠ words [ReplyStat.msgAccepted, AcceptStat.success] ++ r :=
      fun r hd hr => hres ⟨hd, r, hr⟩
    have hrest : 8 ≤ rest.length := by
      rw [ha, List.length_append, length_words, bufSize] at hl
      simp only [List.length_cons, List.length_nil] at hl
      omega
    rw [readReply_other hstart hcall hrest hne, ok_bind]
    constructor
    · intro hname
      cases hname
      exact .other ha hcall hne
    · rintro (⟨bytes, -⟩ | -)
      · obtain ⟨-, rfl, rfl⟩ := two_words_inj (ha.symm.trans (bytes.trans (words_four _ _ _ _ _)))
        exact absurd rfl (hne _ rfl)
      · rfl

end Whole

end Cornflakes.Examples

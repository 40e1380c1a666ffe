import Cornflakes.RoundTrip
import Cornflakes.Flexrpc.ReplyGrammar
import Cornflakes.Examples.Handle

/-!
# The server of the examples (`cf_server.c`)

`serverFunc` answers one call. It drops the results of `cornflake_deserialize` and of `cornflake_serialize`, and takes
the key for the schema of the reply from a record on the stack.

It answers exactly the buffers that start with the six words of a call of its service and whose arguments leave a string
in the buffer for the name; everything else is a fault (`serverFunc_exact`). The buffer for the title is only printed.
-/

set_option autoImplicit false

namespace Cornflakes.Examples

open Wire Flexrpc

/-- What the server finds in its storage: the buffer of the handle, the buffers from `malloc`, the two records and the
address of `reply_args` on the stack. -/
structure ServerStorage where
  buf : Buffer
  name : List Byte
  title : List Byte
  cmsg : RpcMsg FlexxdrMem OatsArgs
  rply : RpcMsg FlexxdrMem OatsArgs
  replyArgs : ULong
  length_name : name.length = 36
  length_title : title.length = 16

/-- What is printed for a name and a title. -/
abbrev Shown := Option (List Byte) × Option (List Byte)

/-- What was printed for the name and the title, the buffer for the name, the record and the handle. -/
def getCall (O : Oats) (flexxdr : Flexxdr FlexxdrMem) (name title : List Byte) (msg : RpcMsg FlexxdrMem OatsArgs) :
    Except Fault (Shown × List Byte × RpcMsg FlexxdrMem OatsArgs × Flexxdr FlexxdrMem) := do
  let (_, cf, flexxdr) ← cornflakeDeserialize O.registry flexxdr ⟨msg, .call ⟨some name, some title⟩⟩
  match cf.args with
  | .call ⟨some name, some title⟩ => return ((printString name, printString title), name, cf.msg, flexxdr)
  | _ => .error .outOfBounds

/-- The record that `set_reply` fills. -/
def replyRecord (O : Oats) (rply : RpcMsg FlexxdrMem OatsArgs) (replyArgs : ULong) (name : List Byte) (result : Word)
    (cmsg : RpcMsg FlexxdrMem OatsArgs) : Cflake FlexxdrMem OatsArgs :=
  let args : OatsArgs := .reply ⟨some name, result⟩
  let rply := ((rply.setRmXid cmsg.rmXid).setRmDirection MsgType.reply).setRpStat ReplyStat.msgAccepted
  let body := rply.body.setStat AcceptStat.success
  let proc := cornflakeGetSchema O.registry cmsg.cbProg cmsg.cbVers cmsg.cbProc MsgType.reply
  ⟨rply.setBody { body with low := .ptr replyArgs args, high := procSlot proc }, args⟩

section Record

variable {O : Oats} {rply cmsg : RpcMsg FlexxdrMem OatsArgs} {replyArgs : ULong} {name : List Byte} {result : Word}

theorem rmDirection_replyRecord : (replyRecord O rply replyArgs name result cmsg).msg.rmDirection = MsgType.reply := rfl

theorem rpStat_replyRecord : (replyRecord O rply replyArgs name result cmsg).msg.rpStat = ReplyStat.msgAccepted := by
  unfold replyRecord
  rw [RpcMsg.rpStat_setBody, RpcMsg.rpStat_setRpStat]

theorem low_replyRecord :
    (replyRecord O rply replyArgs name result cmsg).msg.body.low = .ptr replyArgs (.reply ⟨some name, result⟩) := rfl

theorem stat_replyRecord : (replyRecord O rply replyArgs name result cmsg).msg.body.stat = AcceptStat.success := by
  unfold replyRecord
  exact ReplyBody.stat_setStat _ _

end Record

def setReply (O : Oats) (flexxdr : Flexxdr FlexxdrMem) (rply : RpcMsg FlexxdrMem OatsArgs) (replyArgs : ULong)
    (name : List Byte) (result : Word) (cmsg : RpcMsg FlexxdrMem OatsArgs) : Except Fault (Flexxdr FlexxdrMem) := do
  let (_, _, flexxdr) ← cornflakeSerialize O.registry flexxdr (replyRecord O rply replyArgs name result cmsg)
  return flexxdr

/-- What was printed for the name and the title, and what was written, when `bs` was read. -/
def serverFunc (O : Oats) (st : ServerStorage) (bs : List Byte) : Except Fault (Shown × List Byte) := do
  let flexxdrs := flexxdrmemCreate st.buf.bytes (.ofNat 32 bufSize) .decode
  let (shown, name, cmsg, flexxdrs) ← getCall O (readInto flexxdrs bs) st.name st.title st.cmsg
  let flexxdrs ← setReply O (flipFlexxdr flexxdrs .encode) st.rply st.replyArgs name 1 cmsg
  return (shown, written flexxdrs)

/-! ## Calls of the service -/

/-- The six words of a call of the service. -/
def serviceWords (xid : Word) : List Word := [xid, MsgType.call, 8, 0x20000001, 1, 1]

theorem serviceWords_inj {xid xid' : Word} {r r' : List Byte}
    (h : words (serviceWords xid) ++ r = words (serviceWords xid') ++ r') : xid = xid' ∧ r = r' := by
  have hl : (serviceWords xid).length = (serviceWords xid').length := rfl
  obtain ⟨hw, hr⟩ := words_append_inj hl h
  exact ⟨(List.cons.inj hw).1, hr⟩

/-- The record of a call of the service. -/
def serviceMsg (msg : RpcMsg FlexxdrMem OatsArgs) (xid : Word) : RpcMsg FlexxdrMem OatsArgs :=
  ((msg.setRmXid (xid.setWidth 64)).setRmDirection MsgType.call).setCall 0x20000001 1 1

/-- The answer of the server to the call `xid`, with a string for the name. -/
def answer (xid : Word) (name : List Byte) : List Byte :=
  words [xid, MsgType.reply, ReplyStat.msgAccepted, AcceptStat.success] ++
    (toBytes (narrowed name.length) ++ padded name ++ toBytes 1)

section Service

variable {O : Oats} {c : MemCursor} {xid : Word} {rest name title s : List Byte} {msg : RpcMsg FlexxdrMem OatsArgs}

theorem wireSchema_service :
    wireSchema (O.registry : Registry FlexxdrMem OatsArgs) 0x20000001 1 1 = some O.callSchema := by
  rw [wireSchema, show (0x20000001 : Word).setWidth 64 = OATSPROGRAM from rfl,
    show (1 : Word).setWidth 64 = PRINTMESSAGEVER from rfl]
  exact Oats.getSchema_call

theorem deserialize_service (msg : RpcMsg FlexxdrMem OatsArgs) (name title : List Byte)
    (h : c.ahead = words (serviceWords xid) ++ rest) :
    cornflakeDeserialize O.registry (memStrm .decode c) ⟨msg, .call ⟨some name, some title⟩⟩ =
      match callArgsInto name title rest with
      | none => .error (.inProc .outOfBounds)
      | some (ok, (name, title), r) => .ok (ok, ⟨serviceMsg msg xid, .call ⟨some name, some title⟩⟩,
          memStrm .decode (c.advance (c.room - r.length))) := by
  have hw : c.ahead = words [xid, MsgType.call] ++ (words (callWords 0x20000001 1 1) ++ rest) := by
    rw [h, ← List.append_assoc, ← words_append]
    rfl
  have ha : (c.advance 24).ahead = rest := by
    rw [Cursor.ahead_advance, h]
    rfl
  have hroom : c.room = 24 + rest.length := by
    rw [Cursor.room, h, List.length_append, length_words]
    rfl
  rw [deserialize_call _ _ hw, select_good hw, wireSchema_service, ok_bind]
  show andThen (onField ((onField (callArgs O.A _ _) _).mapError Fault.inProc) _) _ = _
  rw [callArgs_into, ha]
  rcases hi : callArgsInto name title rest with _ | ⟨ok, ⟨name', title'⟩, r⟩
  · rfl
  · have hr : (c.advance 24).room = rest.length := congrArg List.length ha
    have hle : r.length ≤ rest.length := (callArgsInto_suffix hi).length_le
    have hadv : 24 + (rest.length - r.length) = c.room - r.length := by omega
    simp only [hr, Cursor.advance_advance, hadv]
    cases ok with
    | false => rfl
    | true => rfl

/-- The schema of the reply is found by the key of the call. -/
theorem high_replyRecord {rply : RpcMsg FlexxdrMem OatsArgs} {replyArgs : ULong} {result : Word} :
    (replyRecord O rply replyArgs name result (serviceMsg msg xid)).msg.body.high = .proc O.replySchema := by
  have hschema : cornflakeGetSchema (O.registry : Registry FlexxdrMem OatsArgs) (serviceMsg msg xid).cbProg
      (serviceMsg msg xid).cbVers (serviceMsg msg xid).cbProc MsgType.reply = some O.replySchema := by
    simp only [serviceMsg, RpcMsg.cbProg_setCall, RpcMsg.cbVers_setCall, RpcMsg.cbProc_setCall]
    exact Oats.getSchema_reply
  exact congrArg procSlot hschema

/-- The name goes into the answer. -/
theorem setReply_service {b : Buffer} {rply : RpcMsg FlexxdrMem OatsArgs} {replyArgs : ULong} (h : Holds name s)
    (hl : name.length = 36) :
    setReply O (memStrm .encode b.start) rply replyArgs name 1 (serviceMsg msg xid) =
      .ok (memStrm .encode (b.start.write (answer xid s))) := by
  have hlt : s.length < 36 := hl ▸ h.lt
  obtain ⟨h0, r, rfl⟩ := h
  have hn : (narrowed s.length).toNat = s.length := toNat_narrowed (by omega)
  have hp : Passes (narrowed s.length) maxStringSize := narrowed_passes (by omega) (show s.length ≤ 255 by omega)
  have hargs := replyArgs_puts O.A h0 hp r 1
  rw [hn, List.take_length] at hargs
  generalize hcf : replyRecord O rply replyArgs (s ++ 0 :: r) 1 (serviceMsg msg xid) = cf
  have hd : cf.msg.rmDirection = MsgType.reply := hcf ▸ rmDirection_replyRecord
  have hst : cf.msg.rpStat = ReplyStat.msgAccepted := hcf ▸ rpStat_replyRecord
  have hs : cf.msg.body.stat = AcceptStat.success := hcf ▸ stat_replyRecord
  have hx : cf.msg.rmXid = xid.setWidth 64 := hcf ▸ rfl
  have hlow : cf.msg.body.low = .ptr replyArgs (.reply ⟨some (s ++ 0 :: r), 1⟩) := hcf ▸ low_replyRecord
  have hhigh : cf.msg.body.high = .proc O.replySchema := by
    subst hcf
    exact high_replyRecord
  have hcode : Puts (memStrm .encode) (fun X => O.replySchema.code X (.reply ⟨some (s ++ 0 :: r), 1⟩))
      (.reply ⟨some (s ++ 0 :: r), 1⟩) (toBytes (narrowed s.length) ++ padded s ++ toBytes 1) := Puts.last hargs rfl
  have hres := results_puts hhigh hlow hcode
  rw [← acceptedArm_success hs] at hres
  have hunion := replyUnion_accepted hs hres
  rw [← hst] at hunion
  have hser := serialize_reply_puts (R := O.registry) hd (by rw [hx]; exact toNat_setWidth_lt xid)
    (replymsg_puts hd hunion)
  rw [hx, setWidth_setWidth xid (by decide), ← List.append_assoc, ← words_append, hst] at hser
  have hroom : (answer xid s).length ≤ b.start.room := by
    simp only [answer, Buffer.room_start, List.length_append, length_words, length_toBytes, length_padded_eq rfl,
      rounded, bufSize, List.length_cons, List.length_nil]
    omega
  have hput : cornflakeSerialize O.registry (memStrm .encode b.start) cf = _ := hser b.start hroom
  rw [setReply, hcf, hput]
  rfl

end Service

/-! ## Replies that end in a fault -/

section Fault

variable {O : Oats} {c : MemCursor} {cf : Cflake FlexxdrMem OatsArgs} {msg rply : RpcMsg FlexxdrMem OatsArgs}
  {f : Fault}

/-- A fault of the results is one of the whole reply, also of one whose transaction id is refused. -/
theorem serialize_results {R : Registry FlexxdrMem OatsArgs} (hd : cf.msg.rmDirection = MsgType.reply)
    (hst : cf.msg.rpStat = ReplyStat.msgAccepted) (hs : cf.msg.body.stat = AcceptStat.success) (hr : 16 ≤ c.room)
    (hf : ∀ c, flexxdrResults (memStrm .encode c) (cf.msg.body.setStat AcceptStat.success) = .error f) :
    cornflakeSerialize R (memStrm .encode c) cf = .error f := by
  have hw (c' : MemCursor) (h8 : 8 ≤ c'.room) : flexxdrReplymsg (memStrm .encode c') cf.msg = .error f := by
    have hroom : 4 ≤ (c'.write (toBytes ReplyStat.msgAccepted)).room := by
      rw [Cursor.room_write, length_toBytes]
      omega
    have h₁ : flexxdrEnum (memStrm .encode c') cf.msg.rpStat = _ := (congrArg _ hst).trans (enum_encode _ (by omega))
    exact replymsg_asks hd h₁ ((congrArg _ hs).trans (enum_encode _ hroom)) (hf _)
  have hp : ∃ ok c', 8 ≤ c'.room ∧ cornflakePeekHeader (memStrm .encode c) cf = .ok (ok, cf, memStrm .encode c') := by
    by_cases hx : cf.msg.rmXid.toNat < 2 ^ 32
    · have hl : (words [cf.msg.rmXid.setWidth 32, cf.msg.rmDirection]).length = 8 := length_words _
      exact ⟨true, _, by rw [Cursor.room_write, hl]; omega, peek_puts hx c (by rw [hl]; omega)⟩
    · exact ⟨false, c, by omega, peek_refused hx⟩
  obtain ⟨ok, c', h8, hp⟩ := hp
  rw [serialize_reply_body hd hp, hw c' h8]
  rfl

/-- A place without a NUL where the name should be is measured on behind its end. -/
theorem setReply_unterminated {replyArgs : ULong} {name : List Byte} {result xid : Word} (h : printString name = none)
    (hr : 16 ≤ c.room) : setReply O (memStrm .encode c) rply replyArgs name result (serviceMsg msg xid) =
      .error (.inProc .unterminated) := by
  generalize hcf : replyRecord O rply replyArgs name result (serviceMsg msg xid) = cf
  have hhigh : cf.msg.body.high = .proc O.replySchema := hcf ▸ high_replyRecord
  have hlow : cf.msg.body.low = .ptr replyArgs (.reply ⟨some name, result⟩) := hcf ▸ low_replyRecord
  have hres (c : MemCursor) : flexxdrResults (memStrm .encode c) (cf.msg.body.setStat AcceptStat.success) =
      .error (.inProc .unterminated) := by
    have hcode : callProc (some O.replySchema) (memStrm .encode c) (.reply ⟨some name, result⟩) = _ :=
      replySchema_unterminated rfl (printString_none h)
    have heq : flexxdrResults (memStrm .encode c) (cf.msg.body.setStat AcceptStat.success) = _ := results_eq hhigh hlow
    rw [heq, hcode]
    rfl
  have hs : cornflakeSerialize O.registry (memStrm .encode c) cf = .error (.inProc .unterminated) :=
    serialize_results (hcf ▸ rmDirection_replyRecord) (hcf ▸ rpStat_replyRecord) (hcf ▸ stat_replyRecord) hr hres
  rw [setReply, hcf, hs]
  rfl

end Fault

/-! ## Everything else -/

section Foreign

variable {O : Oats} {c : MemCursor} {ar : ReplyBody FlexxdrMem OatsArgs} {msg : RpcMsg FlexxdrMem OatsArgs}
  {X : Flexxdr FlexxdrMem}

end Foreign

/-! ## The whole function -/

/-- What the server makes of a buffer: what it prints and the bytes it writes. -/
inductive Answers (st : ServerStorage) (buf : Buffer) : Shown → List Byte → Prop
  | mk {xid : Word} {rest name title r nameShown : List Byte} {ok : Bool}
      (call : buf.bytes = words (serviceWords xid) ++ rest)
      (args : callArgsInto st.name st.title rest = some (ok, (name, title), r)) (name : Holds name nameShown) :
      Answers st buf (some nameShown, printString title) (answer xid nameShown)

/-- A title that is printed fits into its buffer. -/
theorem Answers.title_le {st : ServerStorage} {buf : Buffer} {shown : Shown} {out t : List Byte}
    (h : Answers st buf shown out) (ht : shown.2 = some t) : t.length ≤ 15 := by
  obtain ⟨-, args, -⟩ := h
  have htitle := (printString_iff.mp ht).lt
  rw [(length_callArgsInto args).2, st.length_title] at htitle
  exact Nat.le_of_lt_succ htitle

/-- A name fits into its buffer. -/
theorem Answers.name_le {st : ServerStorage} {buf : Buffer} {shown : Shown} {out s : List Byte}
    (h : Answers st buf shown out) (hs : shown.1 = some s) : s.length ≤ 35 := by
  obtain ⟨-, args, hname⟩ := h
  cases hs
  have hlt := hname.lt
  rw [(length_callArgsInto args).1, st.length_name] at hlt
  exact Nat.le_of_lt_succ hlt

section Func

variable {O : Oats} {st : ServerStorage} {bs : List Byte}

/-- The function, from the buffer after `read` on. -/
theorem serverFunc_eq (h : bs.length ≤ bufSize) : serverFunc O st bs =
    getCall O (memStrm .decode (st.buf.fill bs h).start) st.name st.title st.cmsg >>= fun o => do
      let flexxdrs ← setReply O (flipFlexxdr o.2.2.2 .encode) st.rply st.replyArgs o.2.1 1 o.2.2.1
      return (o.1, written flexxdrs) := by
  unfold serverFunc
  rw [Buffer.create]
  dsimp only
  rw [Buffer.readInto_start]

theorem getCall_service {b : Buffer} {xid : Word} {rest : List Byte} (h : b.bytes = words (serviceWords xid) ++ rest)
    (name title : List Byte) (msg : RpcMsg FlexxdrMem OatsArgs) :
    getCall O (memStrm .decode b.start) name title msg =
      match callArgsInto name title rest with
      | none => .error (.inProc .outOfBounds)
      | some (_, (name, title), r) => .ok ((printString name, printString title), name, serviceMsg msg xid,
          memStrm .decode (b.start.advance (b.start.room - r.length))) := by
  unfold getCall
  rw [deserialize_service msg name title (show b.start.ahead = _ from h)]
  rcases callArgsInto name title rest with _ | ⟨ok, ⟨name', title'⟩, r⟩
  · rfl
  · rfl

/-- The handle is turned around wherever decoding ended. -/
theorem flip_advance (b : Buffer) (n : Nat) :
    flipFlexxdr (memStrm .decode (b.start.advance n)) .encode = memStrm .encode b.zeroed.start :=
  Buffer.flipFlexxdr_memStrm _ ((Cursor.cells_advance _ _).trans (Buffer.cells_start _)) _ _

/-- What the function does with a call of the service. -/
theorem serverFunc_call (h : bs.length ≤ bufSize) {xid : Word} {rest : List Byte}
    (hb : (st.buf.fill bs h).bytes = words (serviceWords xid) ++ rest) : serverFunc O st bs =
      match callArgsInto st.name st.title rest with
      | none => .error (.inProc .outOfBounds)
      | some (_, (name, title), _) =>
        match printString name with
        | none => .error (.inProc .unterminated)
        | some nameShown => .ok ((some nameShown, printString title), answer xid nameShown) := by
  rw [serverFunc_eq h, getCall_service hb]
  rcases ha : callArgsInto st.name st.title rest with _ | ⟨ok, ⟨name, title⟩, r⟩
  · rfl
  · simp only [ok_bind, flip_advance]
    cases hn : printString name with
    | none =>
      rw [setReply_unterminated hn (by rw [Buffer.room_start]; decide)]
      rfl
    | some nameShown =>
      have hl : name.length = 36 := (length_callArgsInto ha).1.trans st.length_name
      simp only [setReply_service (printString_iff.mp hn) hl, ok_bind, pure_eq_ok, Buffer.written_write]

theorem serverFunc_service (h : bs.length ≤ bufSize) {xid : Word} {rest : List Byte}
    (hb : (st.buf.fill bs h).bytes = words (serviceWords xid) ++ rest) {shown : Shown} {out : List Byte} :
    serverFunc O st bs = .ok (shown, out) ↔ Answers st (st.buf.fill bs h) shown out := by
  rw [serverFunc_call h hb]
  constructor
  · intro hf
    rcases ha : callArgsInto st.name st.title rest with _ | ⟨ok, ⟨name, title⟩, r⟩
    · rw [ha] at hf
      cases hf
    rw [ha] at hf
    cases hn : printString name with
    | none =>
      simp only [hn] at hf
      cases hf
    | some nameShown =>
      simp only [hn] at hf
      cases hf
      exact ⟨hb, ha, printString_iff.mp hn⟩
  · rintro ⟨call, args, hname⟩
    obtain ⟨rfl, rfl⟩ := serviceWords_inj (hb.symm.trans call)
    simp only [args, printString_iff.mpr hname]

end Func

/-- A server that finds zeros in its storage. -/
def zeroServer : ServerStorage :=
  ⟨⟨List.replicate 80 0, rfl⟩, List.replicate 36 0, List.replicate 16 0, .zeros, .zeros, 4096, rfl, rfl⟩

end Cornflakes.Examples

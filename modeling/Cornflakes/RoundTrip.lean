import Mathlib.Data.List.Forall2
import Cornflakes.Serialize
import Cornflakes.Deserialize

/-!
# Round trips of calls and replies

- `pipeline_roundTrip`: calls that are serialised one after another into one buffer are deserialised from its start,
  in the same order and up to the same place;
- `reply_roundTrip`: a reply is recovered for every arm that the encoder knows, and a rejection for a reason other than
  the RPC version is refused both ways.

One message is a pair of specifications of the codec library, `Puts` for the serialiser and `Takes` for the
deserialiser; the list of messages is the library's induction.
-/

set_option autoImplicit false

namespace Cornflakes

open Wire Flexrpc

variable {α : Type}

/-! ## Buffers -/

/-- What an encoder puts into a buffer a decoder takes out of it, up to the place where the encoder stopped. -/
theorem buffer_roundTrip {μ ν : Type} {f : Flexxdr FlexxdrMem → Except Fault (Outcome FlexxdrMem μ)}
    {g : Flexxdr FlexxdrMem → Except Fault (Outcome FlexxdrMem ν)} {v : μ} {w : ν} {bs : List Byte}
    (hf : Puts (memStrm .encode) f v bs) (hg : Takes (memStrm .decode) g w bs) {buf : List Byte}
    (hb : buf.length < 2 ^ 32) (hr : bs.length ≤ buf.length) :
    ∃ X Y, f (flexxdrmemCreate buf (.ofNat 32 buf.length) .encode) = .ok (true, v, X) ∧
      g (flexxdrmemCreate X.strm.fBase (.ofNat 32 buf.length) .decode) = .ok (true, w, Y) ∧
      X.strm.fPrivate = bs.length ∧ Y.strm.fPrivate = bs.length := by
  have hbs : (bs ++ buf.drop bs.length).length = buf.length := by
    rw [List.length_append, List.length_drop]
    omega
  have hl : (bs ++ buf.drop bs.length).length < 2 ^ 32 := by rw [hbs]; exact hb
  have hc : (memStrm .encode ((MemCursor.ofBuffer buf hb).write bs)).strm.fBase = bs ++ buf.drop bs.length := by
    simp [memStrm, MemCursor.ofBuffer, Cursor.cells, Cursor.write]
  refine ⟨memStrm .encode ((MemCursor.ofBuffer buf hb).write bs),
    memStrm .decode ((MemCursor.ofBuffer (bs ++ buf.drop bs.length) hl).advance bs.length), ?_, ?_, ?_, ?_⟩
  · rw [create_eq_memStrm .encode buf hb]
    exact hf _ hr
  · rw [hc, ← hbs, create_eq_memStrm .decode _ hl]
    exact hg _ _ rfl
  · simp [memStrm, MemCursor.ofBuffer, Cursor.pos]
  · simp [memStrm, MemCursor.ofBuffer, Cursor.pos]

/-! ## Pipelined calls -/

/-- A call to be sent and the message into which it is received. Its key finds a schema in the registry, which encodes
the arguments as `bytes` and decodes these, whatever follows, into the same arguments. -/
structure PipelinedCall (R : Registry FlexxdrMem α) where
  sent : Cflake FlexxdrMem α
  into : Cflake FlexxdrMem α
  schema : FlexxdrProc FlexxdrMem α
  argsLeft : α
  bytes : List Byte
  isCall : sent.msg.rmDirection = MsgType.call
  fits : sent.msg.HeaderFits
  procFits : sent.msg.cbProc.toNat < 2 ^ 32
  resolves : cornflakeGetSchema R sent.msg.cbProg sent.msg.cbVers sent.msg.cbProc MsgType.call = some schema
  puts : Puts (memStrm .encode) (fun X => schema.code X sent.args) argsLeft bytes
  takes : Takes (memStrm .decode) (fun X => schema.code X into.args) sent.args bytes

namespace PipelinedCall

variable {R : Registry FlexxdrMem α} (call : PipelinedCall R)

/-- The bytes of the whole call. -/
def wire : List Byte := words (callMessage call.sent.msg) ++ call.bytes

/-- The message that was sent, afterwards. -/
def after : Cflake FlexxdrMem α := (call.sent.setMsg (callhdrMsg call.sent.msg)).setArgs call.argsLeft

/-- The message that is received. -/
def received : Cflake FlexxdrMem α :=
  ⟨((call.into.msg.setRmXid ((call.sent.msg.rmXid.setWidth 32).setWidth 64)).setRmDirection MsgType.call).setCall
    (call.sent.msg.cbProg.setWidth 32) (call.sent.msg.cbVers.setWidth 32) (call.sent.msg.cbProc.setWidth 32),
    call.sent.args⟩

theorem serialize_puts :
    Puts (memStrm .encode) (fun X => cornflakeSerialize R X call.sent) call.after call.wire := by
  intro c hc
  rw [wire, List.length_append, length_words] at hc
  have hl : (callMessage call.sent.msg).length = 6 := rfl
  have hp := call.puts (c.write (words (callMessage call.sent.msg))) (by
    rw [Cursor.room_write, length_words]
    omega)
  have hs := serialize_whole (R := R) (c := c) call.isCall call.fits (by omega)
  rw [call.resolves] at hs
  simp only [callProc_ok hp, ok_bind, Cursor.write_write] at hs
  exact hs

theorem deserialize_takes :
    Takes (memStrm .decode) (fun X => cornflakeDeserialize R X call.into) call.received call.wire := by
  intro c r h
  have hc : callMessage call.sent.msg = [call.sent.msg.rmXid.setWidth 32, MsgType.call] ++
      callWords (call.sent.msg.cbProg.setWidth 32) (call.sent.msg.cbVers.setWidth 32)
        (call.sent.msg.cbProc.setWidth 32) := rfl
  rw [wire, hc, words_append, List.append_assoc, List.append_assoc] at h
  obtain ⟨-, hfp, hfv⟩ := call.fits
  have hw : wireSchema R (call.sent.msg.cbProg.setWidth 32) (call.sent.msg.cbVers.setWidth 32)
      (call.sent.msg.cbProc.setWidth 32) = some call.schema := by
    rw [wireSchema, (setWidth_fits _).mpr hfp, (setWidth_fits _).mpr hfv, (setWidth_fits _).mpr call.procFits]
    exact call.resolves
  have ha : (c.advance 24).ahead = call.bytes ++ r := by rw [Cursor.ahead_advance, h]; rfl
  have hp := call.takes (c.advance 24) r ha
  have hl : call.wire.length = 24 + call.bytes.length := by
    rw [wire, List.length_append, length_words]
    rfl
  have hd := deserialize_call R call.into h
  rw [select_good h, hw, ok_bind] at hd
  simp only [Cflake.setMsg, callProc_ok hp, onField_ok, andThen_true, Cursor.advance_advance, ← hl] at hd
  rw [deserializeReply_other (by intro e; cases e)] at hd
  exact hd

end PipelinedCall

/-- The received message has the header fields and the arguments of the one that was sent. -/
structure SameCall (sent received : Cflake FlexxdrMem α) : Prop where
  xid : received.msg.rmXid = sent.msg.rmXid
  direction : received.msg.rmDirection = MsgType.call
  rpcvers : received.msg.cbRpcvers = flexrpcMsgVersion
  prog : received.msg.cbProg = sent.msg.cbProg
  vers : received.msg.cbVers = sent.msg.cbVers
  proc : received.msg.cbProc = sent.msg.cbProc
  args : received.args = sent.args

theorem PipelinedCall.sameCall {R : Registry FlexxdrMem α} (call : PipelinedCall R) :
    SameCall call.sent call.received where
  xid := (setWidth_fits _).mpr call.fits.1
  direction := rfl
  rpcvers := rfl
  prog := (RpcMsg.cbProg_setCall _ _ _ _).trans ((setWidth_fits _).mpr call.fits.2.1)
  vers := (RpcMsg.cbVers_setCall _ _ _ _).trans ((setWidth_fits _).mpr call.fits.2.2)
  proc := (RpcMsg.cbProc_setCall _ _ _ _).trans ((setWidth_fits _).mpr call.procFits)
  args := rfl

/-- **Pipelined calls round-trip**: all of them are sent and received with TRUE, in the same order, and the receiver
stops where the sender did. -/
theorem pipeline_roundTrip (R : Registry FlexxdrMem α) (calls : List (PipelinedCall R)) (buf : List Byte)
    (hb : buf.length < 2 ^ 32) (hr : (calls.flatMap fun call => call.wire).length ≤ buf.length) :
    ∃ sent received X Y,
      runAll (cornflakeSerialize R) (flexxdrmemCreate buf (.ofNat 32 buf.length) .encode)
          (calls.map fun call => call.sent) = .ok (true, sent, X) ∧
      runAll (cornflakeDeserialize R) (flexxdrmemCreate X.strm.fBase (.ofNat 32 buf.length) .decode)
          (calls.map fun call => call.into) = .ok (true, received, Y) ∧
      List.Forall₂ SameCall (calls.map fun call => call.sent) received ∧
      X.strm.fPrivate = Y.strm.fPrivate := by
  have hp := Puts.list calls fun call _ => call.serialize_puts
  have ht := Takes.list calls fun call _ => call.deserialize_takes
  obtain ⟨X, Y, hX, hY, hxp, hyp⟩ := buffer_roundTrip hp ht hb hr
  refine ⟨_, _, X, Y, hX, hY, ?_, hxp.trans hyp.symm⟩
  rw [List.forall₂_map_left_iff, List.forall₂_map_right_iff]
  exact List.forall₂_same.mpr fun call _ => call.sameCall

/-- A service whose calls take one word. -/
def wordService : Registry FlexxdrMem Word :=
  registerAll [⟨1, 1, 1, some { addr := 4096, code := flexxdrEnum }, none, 0⟩]

theorem callOf_one_fits : (callOf 1 : RpcMsg FlexxdrMem Word).HeaderFits := ⟨by decide, by decide, by decide⟩

/-- A call of it with the argument `w`. -/
def wordCall (w : Word) : PipelinedCall wordService where
  sent := ⟨callOf 1, w⟩
  into := ⟨.zeros, 0⟩
  schema := { addr := 4096, code := flexxdrEnum }
  argsLeft := w
  bytes := toBytes w
  isCall := rfl
  fits := callOf_one_fits
  procFits := show (1 : ULong).toNat < 2 ^ 32 by decide
  resolves := rfl
  puts := enum_puts w
  takes := enum_takes 0 w

theorem pipeline_roundTrip_wordCall :
    ∃ sent received X Y,
      runAll (cornflakeSerialize wordService) (flexxdrmemCreate (List.replicate 60 0) (.ofNat 32 60) .encode)
          ([wordCall 5, wordCall 6].map fun call => call.sent) = .ok (true, sent, X) ∧
      runAll (cornflakeDeserialize wordService) (flexxdrmemCreate X.strm.fBase (.ofNat 32 60) .decode)
          ([wordCall 5, wordCall 6].map fun call => call.into) = .ok (true, received, Y) ∧
      List.Forall₂ SameCall ([wordCall 5, wordCall 6].map fun call => call.sent) received ∧
      X.strm.fPrivate = Y.strm.fPrivate :=
  pipeline_roundTrip wordService [wordCall 5, wordCall 6] (List.replicate 60 0) (by decide) (by decide)

/-! ## Replies -/

/-- An arm of a reply that the encoder knows: the reply status, the storage of the reply that is sent and of the one
into which it is received, and the bytes after the two status words. A result needs the procedure that is prepared on
the receiving side to decode what the sender's encodes. -/
inductive ReplyArm : Word → ReplyBody FlexxdrMem α → ReplyBody FlexxdrMem α → List Byte → Prop
  | success {ar into : ReplyBody FlexxdrMem α} {p q : FlexxdrProc FlexxdrMem α} {addr addr' : ULong} {a a' dst : α}
      {bytes : List Byte} (stat : ar.stat = AcceptStat.success) (proc : ar.high = .proc p) (result : ar.low = .ptr addr a)
      (prepared : into.high = .proc q) (place : into.low = .ptr addr' dst)
      (puts : Puts (memStrm .encode) (fun X => p.code X a) a' bytes)
      (takes : Takes (memStrm .decode) (fun X => q.code X dst) a bytes) : ReplyArm ReplyStat.msgAccepted ar into bytes
  | progMismatch {ar into : ReplyBody FlexxdrMem α} (stat : ar.stat = AcceptStat.progMismatch)
      (low : ar.versLow.toNat < 2 ^ 32) (high : ar.versHigh.toNat < 2 ^ 32) :
      ReplyArm ReplyStat.msgAccepted ar into (words [ar.versLow.setWidth 32, ar.versHigh.setWidth 32])
  | otherStat {ar into : ReplyBody FlexxdrMem α} (success : ar.stat ≠ AcceptStat.success)
      (progMismatch : ar.stat ≠ AcceptStat.progMismatch) : ReplyArm ReplyStat.msgAccepted ar into []
  | rpcMismatch {ar into : ReplyBody FlexxdrMem α} (stat : ar.stat = RejectStat.rpcMismatch)
      (low : ar.versLow.toNat < 2 ^ 32) (high : ar.versHigh.toNat < 2 ^ 32) :
      ReplyArm ReplyStat.msgDenied ar into (words [ar.versLow.setWidth 32, ar.versHigh.setWidth 32])

/-- The storage `out` of the received reply has the status of `ar`, and the results or the bounds. -/
structure Recovers (st : Word) (ar out : ReplyBody FlexxdrMem α) : Prop where
  stat : out.stat = ar.stat
  results : st = ReplyStat.msgAccepted → ar.stat = AcceptStat.success →
    ∃ addr addr' a, ar.low = .ptr addr a ∧ out.low = .ptr addr' a
  bounds : st = ReplyStat.msgAccepted ∧ ar.stat = AcceptStat.progMismatch ∨
    st = ReplyStat.msgDenied ∧ ar.stat = RejectStat.rpcMismatch → out.versLow = ar.versLow ∧ out.versHigh = ar.versHigh

namespace ReplyArm

variable {st : Word} {ar into : ReplyBody FlexxdrMem α} {bytes : List Byte}

theorem union_puts (h : ReplyArm st ar into bytes) : ∃ ar', Puts (memStrm .encode)
    (fun X => flexxdrUnion X st ar replyDscrm none) (st, ar') (toBytes st ++ (toBytes ar.stat ++ bytes)) := by
  cases h with
  | @success _ _ p q addr addr' a a' dst _ stat proc result prepared place puts takes =>
    refine ⟨{ ar with low := .ptr addr a' }, Flexrpc.union_puts choice_accepted (accepted_puts ?_)⟩
    rw [acceptedArm_success stat]
    exact results_puts proc result puts
  | progMismatch stat low high =>
    refine ⟨ar, Flexrpc.union_puts choice_accepted (accepted_puts ?_)⟩
    rw [acceptedArm_mismatch stat]
    exact versions_puts low high
  | otherStat success progMismatch =>
    refine ⟨ar, Flexrpc.union_puts choice_accepted (accepted_puts ?_)⟩
    rw [acceptedArm_other success progMismatch]
    exact nothing_puts
  | rpcMismatch stat low high =>
    refine ⟨ar, Flexrpc.union_puts choice_denied (rejected_puts ?_)⟩
    rw [rejectedArm_mismatch stat]
    exact versions_puts low high

/-- The storage `into` with the status and the bounds of `ar`, each through a word on the wire. -/
def boundsInto (ar into : ReplyBody FlexxdrMem α) : ReplyBody FlexxdrMem α :=
  ((into.setStat ar.stat).setVersLow ((ar.versLow.setWidth 32).setWidth 64)).setVersHigh
    ((ar.versHigh.setWidth 32).setWidth 64)

theorem boundsInto_versions (hl : ar.versLow.toNat < 2 ^ 32) (hh : ar.versHigh.toNat < 2 ^ 32) :
    (boundsInto ar into).versLow = ar.versLow ∧ (boundsInto ar into).versHigh = ar.versHigh := by
  rw [boundsInto, (setWidth_fits _).mpr hl, (setWidth_fits _).mpr hh]
  exact ⟨by simp, by simp⟩

theorem union_takes (h : ReplyArm st ar into bytes) (d : Word) : ∃ out, Recovers st ar out ∧
    Takes (memStrm .decode) (fun X => flexxdrUnion X d into replyDscrm none) (st, out)
      (toBytes st ++ (toBytes ar.stat ++ bytes)) := by
  have hs : (into.setStat ar.stat).stat = ar.stat := ReplyBody.stat_setStat _ _
  cases h with
  | @success _ _ p q addr addr' a a' dst _ stat proc result prepared place puts takes =>
    refine ⟨{ into.setStat ar.stat with low := .ptr addr' a }, ⟨hs, ?_, ?_⟩, ?_⟩
    · exact fun _ _ => ⟨addr, addr', a, result, rfl⟩
    · rintro (⟨-, he⟩ | ⟨he, -⟩)
      · rw [stat] at he
        cases he
      · cases he
    · refine Flexrpc.union_takes choice_accepted (accepted_takes ?_)
      rw [acceptedArm_success (hs.trans stat)]
      exact results_takes prepared place takes
  | progMismatch stat low high =>
    refine ⟨boundsInto ar into, ⟨by simp [boundsInto], ?_, fun _ => boundsInto_versions low high⟩, ?_⟩
    · intro _ he
      rw [stat] at he
      cases he
    · refine Flexrpc.union_takes choice_accepted (accepted_takes ?_)
      rw [acceptedArm_mismatch (hs.trans stat)]
      exact versions_takes _ _ _
  | otherStat success progMismatch =>
    refine ⟨into.setStat ar.stat, ⟨hs, fun _ he => absurd he success, ?_⟩, ?_⟩
    · rintro (⟨-, he⟩ | ⟨he, -⟩)
      · exact absurd he progMismatch
      · cases he
    · refine Flexrpc.union_takes choice_accepted (accepted_takes ?_)
      rw [acceptedArm_other (by rw [hs]; exact success) (by rw [hs]; exact progMismatch)]
      exact nothing_takes
  | rpcMismatch stat low high =>
    refine ⟨boundsInto ar into, ⟨by simp [boundsInto], ?_, fun _ => boundsInto_versions low high⟩, ?_⟩
    · intro he
      cases he
    · refine Flexrpc.union_takes choice_denied (rejected_takes ?_)
      rw [rejectedArm_mismatch (hs.trans stat)]
      exact versions_takes _ _ _

end ReplyArm

section Reply

variable {R : Registry FlexxdrMem α} {cf : Cflake FlexxdrMem α}

theorem peek_puts (hx : cf.msg.rmXid.toNat < 2 ^ 32) : Puts (memStrm .encode) (fun X => cornflakePeekHeader X cf) cf
    (words [cf.msg.rmXid.setWidth 32, cf.msg.rmDirection]) :=
  Puts.field (uLong_puts hx) rfl <| Puts.last (enum_puts _) rfl

/-- A transaction id that does not fit leaves the stream alone. -/
theorem peek_refused {c : MemCursor} (hx : ¬ cf.msg.rmXid.toNat < 2 ^ 32) :
    cornflakePeekHeader (memStrm .encode c) cf = .ok (false, cf, memStrm .encode c) := by
  simp only [cornflakePeekHeader, uLong_refused (fun hu => hx hu.1), onField_ok, andThen_false]
  rfl

/-- The header of a reply may find no room: `cornflake_serialize` goes on all the same. -/
theorem peek_encodes (cf : Cflake FlexxdrMem α) (c : MemCursor) :
    ∃ ok c', cornflakePeekHeader (memStrm .encode c) cf = .ok (ok, cf, memStrm .encode c') := by
  by_cases hx : cf.msg.rmXid.toNat < 2 ^ 32
  · by_cases hr : 8 ≤ c.room
    · exact ⟨true, _, peek_puts hx c hr⟩
    · have hs : Short (memStrm .encode) (fun X => cornflakePeekHeader X cf) cf 8 :=
        Short.field (uLong_puts hx) (uLong_puts_short _) rfl <| Short.last (enum_puts_short _) rfl
      exact ⟨false, hs c (by omega)⟩
  · have hs : Refuses (memStrm .encode) (fun X => cornflakePeekHeader X cf) cf := Refuses.field (uLong_refuses hx) rfl
    exact ⟨false, hs c⟩

theorem serialize_reply {X : Flexxdr FlexxdrMem} (hd : cf.msg.rmDirection = MsgType.reply) :
    cornflakeSerialize R X cf = serializeReply X cf := by
  have hc : cf.msg.rmDirection ≠ MsgType.call := by rw [hd]; decide
  rw [cornflakeSerialize, if_neg hc, if_pos hd]

/-- Whatever becomes of the header, the function goes on with the body. -/
theorem serialize_reply_body (hd : cf.msg.rmDirection = MsgType.reply) {ok : Bool} {c c' : MemCursor}
    (hp : cornflakePeekHeader (memStrm .encode c) cf = .ok (ok, cf, memStrm .encode c')) :
    cornflakeSerialize R (memStrm .encode c) cf = onField (flexxdrReplymsg (memStrm .encode c') cf.msg) cf.setMsg := by
  rw [serialize_reply hd, serializeReply, hp, ok_bind]

theorem serialize_reply_puts {m : RpcMsg FlexxdrMem α} {bs : List Byte} (hd : cf.msg.rmDirection = MsgType.reply)
    (hx : cf.msg.rmXid.toNat < 2 ^ 32) (h : Puts (memStrm .encode) (fun X => flexxdrReplymsg X cf.msg) m bs) :
    Puts (memStrm .encode) (fun X => cornflakeSerialize R X cf) (cf.setMsg m)
      (words [cf.msg.rmXid.setWidth 32, MsgType.reply] ++ bs) := by
  intro c hc
  rw [List.length_append, length_words] at hc
  have hp := peek_puts hx c (by rw [length_words]; simp only [List.length_cons, List.length_nil] at hc ⊢; omega)
  rw [hd] at hp
  have hr := h (c.write (words [cf.msg.rmXid.setWidth 32, MsgType.reply])) (by
    rw [Cursor.room_write, length_words]
    omega)
  refine (serialize_reply hd).trans ?_
  simp only [serializeReply, hp, ok_bind, hr, onField_ok, Cursor.write_write]

theorem serialize_reply_refuses (hd : cf.msg.rmDirection = MsgType.reply)
    (h : Refuses (memStrm .encode) (fun X => flexxdrReplymsg X cf.msg) cf.msg) (c : MemCursor) :
    Returns (cornflakeSerialize R (memStrm .encode c) cf) false := by
  obtain ⟨ok, c', hp⟩ := peek_encodes cf c
  obtain ⟨c'', hr⟩ := h c'
  refine ⟨cf, memStrm .encode c'', (serialize_reply hd).trans ?_⟩
  simp only [serializeReply, hp, ok_bind, hr, onField_ok]
  rfl

theorem deserialize_reply_takes {m : RpcMsg FlexxdrMem α} {bs : List Byte} {xid : Word}
    (h : Takes (memStrm .decode) (fun X => flexxdrReplymsg X (headed cf xid MsgType.reply).msg) m bs) :
    Takes (memStrm .decode) (fun X => cornflakeDeserialize R X cf) (cf.setMsg m)
      (words [xid, MsgType.reply] ++ bs) := by
  intro c r ha
  rw [List.append_assoc] at ha
  have hr := h (c.advance 8) r (ahead_header ha)
  refine (deserialize_other ha (by decide)).trans ?_
  refine (deserializeReply_eq rfl).trans ?_
  simp only [hr, onField_ok, Cursor.advance_advance, List.length_append, length_words]
  rfl

end Reply

/-- A reply that is sent from `sent` and received into `into`: every arm that the encoder knows is carried, and the
receiver stops where the sender did; a rejection for a reason other than the RPC version is refused on both sides. -/
structure ReplyRoundTrip (R R' : Registry FlexxdrMem α) (sent into : Cflake FlexxdrMem α) : Prop where
  carried : ∀ bytes buf, ReplyArm sent.msg.rpStat sent.msg.body into.msg.body bytes → buf.length < 2 ^ 32 →
    16 + bytes.length ≤ buf.length → ∃ after received X Y,
      cornflakeSerialize R (flexxdrmemCreate buf (.ofNat 32 buf.length) .encode) sent = .ok (true, after, X) ∧
      cornflakeDeserialize R' (flexxdrmemCreate X.strm.fBase (.ofNat 32 buf.length) .decode) into =
        .ok (true, received, Y) ∧
      received.msg.rmXid = sent.msg.rmXid ∧ received.msg.rmDirection = MsgType.reply ∧
      received.msg.rpStat = sent.msg.rpStat ∧ Recovers sent.msg.rpStat sent.msg.body received.msg.body ∧
      X.strm.fPrivate = 16 + bytes.length ∧ Y.strm.fPrivate = 16 + bytes.length
  refused : sent.msg.rpStat = ReplyStat.msgDenied → sent.msg.body.stat ≠ RejectStat.rpcMismatch →
    (∀ c, Returns (cornflakeSerialize R (memStrm .encode c) sent) false) ∧
    ∀ c xid rest, c.ahead = words [xid, MsgType.reply, ReplyStat.msgDenied, sent.msg.body.stat] ++ rest →
      Returns (cornflakeDeserialize R' (memStrm .decode c) into) false

theorem reply_carried {R R' : Registry FlexxdrMem α} {sent into : Cflake FlexxdrMem α}
    (hd : sent.msg.rmDirection = MsgType.reply) (hx : sent.msg.rmXid.toNat < 2 ^ 32) {bytes buf : List Byte}
    (harm : ReplyArm sent.msg.rpStat sent.msg.body into.msg.body bytes) (hb : buf.length < 2 ^ 32)
    (hr : 16 + bytes.length ≤ buf.length) : ∃ after received X Y,
      cornflakeSerialize R (flexxdrmemCreate buf (.ofNat 32 buf.length) .encode) sent = .ok (true, after, X) ∧
      cornflakeDeserialize R' (flexxdrmemCreate X.strm.fBase (.ofNat 32 buf.length) .decode) into =
        .ok (true, received, Y) ∧
      received.msg.rmXid = sent.msg.rmXid ∧ received.msg.rmDirection = MsgType.reply ∧
      received.msg.rpStat = sent.msg.rpStat ∧ Recovers sent.msg.rpStat sent.msg.body received.msg.body ∧
      X.strm.fPrivate = 16 + bytes.length ∧ Y.strm.fPrivate = 16 + bytes.length := by
  obtain ⟨ar', hu⟩ := harm.union_puts
  obtain ⟨out, hrec, hv⟩ := harm.union_takes (headed into (sent.msg.rmXid.setWidth 32) MsgType.reply).msg.rpStat
  have hp := replymsg_puts hd hu
  have ht := replymsg_takes (m := (headed into (sent.msg.rmXid.setWidth 32) MsgType.reply).msg) rfl hv
  have hl : (words [sent.msg.rmXid.setWidth 32, MsgType.reply] ++
      (toBytes sent.msg.rpStat ++ (toBytes sent.msg.body.stat ++ bytes))).length = 16 + bytes.length := by
    simp only [List.length_append, length_words, length_toBytes, List.length_cons, List.length_nil]
    omega
  obtain ⟨X, Y, hX, hY, hxp, hyp⟩ := buffer_roundTrip (serialize_reply_puts (R := R) hd hx hp)
    (deserialize_reply_takes (R := R') ht) hb (by rw [hl]; exact hr)
  rw [hl] at hxp hyp
  have hxid : (sent.msg.rmXid.setWidth 32).setWidth 64 = sent.msg.rmXid := (setWidth_fits _).mpr hx
  refine ⟨_, _, X, Y, hX, hY, ?_, ?_, ?_, ?_, hxp, hyp⟩
  · exact hxid
  · rfl
  · simp only [Cflake.msg_setMsg, RpcMsg.rpStat_setBody, RpcMsg.rpStat_setRpStat]
  · exact hrec

theorem denied_sent_refused {R : Registry FlexxdrMem α} {sent : Cflake FlexxdrMem α}
    (hd : sent.msg.rmDirection = MsgType.reply) (hst : sent.msg.rpStat = ReplyStat.msgDenied)
    (hrj : sent.msg.body.stat ≠ RejectStat.rpcMismatch) (c : MemCursor) :
    Returns (cornflakeSerialize R (memStrm .encode c) sent) false := by
  refine serialize_reply_refuses hd ?_ c
  have hu : Refuses (memStrm .encode)
      (fun X => flexxdrUnion X sent.msg.rpStat sent.msg.body replyDscrm none) (sent.msg.rpStat, sent.msg.body) := by
    rw [hst]
    exact union_refuses choice_denied (rejected_refuses hrj)
  rw [replymsg_reply hd]
  exact Refuses.last hu (congrArg (RpcMsg.setBody · sent.msg.body) sent.msg.setRpStat_rpStat)

theorem denied_received_refused {R : Registry FlexxdrMem α} {into : Cflake FlexxdrMem α} {c : MemCursor}
    {xid rj : Word} {rest : List Byte} (hrj : rj ≠ RejectStat.rpcMismatch)
    (h : c.ahead = words [xid, MsgType.reply] ++ (toBytes ReplyStat.msgDenied ++ (toBytes rj ++ rest))) :
    Returns (cornflakeDeserialize R (memStrm .decode c) into) false := by
  have ha : ((c.advance 8).advance 4).ahead = toBytes rj ++ rest := by
    rw [Cursor.ahead_advance, ahead_header h]
    rfl
  rw [deserialize_other h (by decide), deserializeReply_reply rfl, congrFun (replymsg_reply rfl) _, returns_onField,
    union_arm (enum_decode _ (ahead_header h)) choice_denied, returns_onField, rejected_decode hrj ha, returns_ok]

/-- **Replies round-trip.** -/
theorem reply_roundTrip (R R' : Registry FlexxdrMem α) (sent into : Cflake FlexxdrMem α)
    (hd : sent.msg.rmDirection = MsgType.reply) (hx : sent.msg.rmXid.toNat < 2 ^ 32) :
    ReplyRoundTrip R R' sent into where
  carried := fun _ _ harm hb hr => reply_carried hd hx harm hb hr
  refused := by
    intro hst hrj
    refine ⟨denied_sent_refused hd hst hrj, ?_⟩
    intro c xid rest h
    have ha : words [xid, MsgType.reply, ReplyStat.msgDenied, sent.msg.body.stat] ++ rest =
        words [xid, MsgType.reply] ++ (toBytes ReplyStat.msgDenied ++ (toBytes sent.msg.body.stat ++ rest)) := by
      simp only [words_cons, words_nil, List.append_assoc, List.nil_append]
    exact denied_received_refused hrj (h.trans ha)

/-- A service that answers with one word, and a record prepared for its results. -/
def wordReply (w : Word) : Cflake FlexxdrMem Word :=
  ⟨⟨7, MsgType.reply, 0, ⟨0, .ptr 8192 w, .proc { addr := 4096, code := flexxdrEnum }⟩⟩, 0⟩

theorem wordReply_arm : ReplyArm (wordReply 5).msg.rpStat (wordReply 5).msg.body (wordReply 0).msg.body (toBytes 5) :=
  .success rfl rfl rfl rfl rfl (enum_puts 5) (enum_takes 0 5)

theorem reply_roundTrip_wordReply : ∃ after received X Y,
    cornflakeSerialize Registry.empty (flexxdrmemCreate (List.replicate 20 0) (.ofNat 32 20) .encode) (wordReply 5) =
      .ok (true, after, X) ∧
    cornflakeDeserialize Registry.empty (flexxdrmemCreate X.strm.fBase (.ofNat 32 20) .decode) (wordReply 0) =
      .ok (true, received, Y) ∧
    received.msg.rmXid = (wordReply 5).msg.rmXid ∧ received.msg.rmDirection = MsgType.reply ∧
    received.msg.rpStat = (wordReply 5).msg.rpStat ∧
    Recovers (wordReply 5).msg.rpStat (wordReply 5).msg.body received.msg.body ∧
    X.strm.fPrivate = 16 + (toBytes 5).length ∧ Y.strm.fPrivate = 16 + (toBytes 5).length :=
  (reply_roundTrip Registry.empty Registry.empty (wordReply 5) (wordReply 0) rfl (by decide)).carried (toBytes 5)
    (List.replicate 20 0) wordReply_arm (by decide) (by decide)

end Cornflakes

import Cornflakes.Flexrpc.Prim
import Cornflakes.Flexrpc.ReplyGrammar
import Cornflakes.RoundTrip

/-!
# Calls and replies in one stream, received in part

A sequence of calls and replies is written into one buffer, and the first `n` bytes of it are received, whatever `n`
is. The messages that are there in full are received as they were sent. The message in which the bytes end is refused,
unless they end in the four words after the direction of a call: `flexxdr_callmsg` fails there, its result is dropped,
and a schema that was not looked up is called (`ReceivedUpTo`, `traffic_received`).
-/

set_option autoImplicit false

namespace Cornflakes

open Wire Flexrpc

variable {α : Type} {R : Registry FlexxdrMem α}

/-! ## Messages -/

/-- A reply to be sent and the record into which it is received. -/
structure PipelinedReply (α : Type) where
  sent : Cflake FlexxdrMem α
  into : Cflake FlexxdrMem α
  bytes : List Byte
  isReply : sent.msg.rmDirection = MsgType.reply
  fits : sent.msg.rmXid.toNat < 2 ^ 32
  arm : ReplyArm sent.msg.rpStat sent.msg.body into.msg.body bytes

/-- The received reply has the header, the statuses and the results or bounds of the one that was sent. -/
structure SameReply (sent received : Cflake FlexxdrMem α) : Prop where
  xid : received.msg.rmXid = sent.msg.rmXid
  direction : received.msg.rmDirection = MsgType.reply
  stat : received.msg.rpStat = sent.msg.rpStat
  body : Recovers sent.msg.rpStat sent.msg.body received.msg.body

/-- A message of either direction. -/
inductive Traffic (R : Registry FlexxdrMem α)
  | call (call : PipelinedCall R)
  | reply (reply : PipelinedReply α)

namespace PipelinedReply

variable (reply : PipelinedReply α)

/-- The words before the body of the reply. -/
def header : List Byte := words [reply.sent.msg.rmXid.setWidth 32, MsgType.reply]

/-- The statuses and what follows them. -/
def tail : List Byte := toBytes reply.sent.msg.rpStat ++ (toBytes reply.sent.msg.body.stat ++ reply.bytes)

/-- The bytes of the whole reply. -/
def wire : List Byte := reply.header ++ reply.tail

theorem serialize_puts : ∃ after, Puts (memStrm .encode) (fun X => cornflakeSerialize R X reply.sent) after reply.wire := by
  obtain ⟨ar', hu⟩ := reply.arm.union_puts
  exact ⟨_, serialize_reply_puts reply.isReply reply.fits (replymsg_puts reply.isReply hu)⟩

theorem deserialize_takes : ∃ received, SameReply reply.sent received ∧
    Takes (memStrm .decode) (fun X => cornflakeDeserialize R X reply.into) received reply.wire := by
  obtain ⟨out, hrec, hv⟩ := reply.arm.union_takes
    (headed reply.into (reply.sent.msg.rmXid.setWidth 32) MsgType.reply).msg.rpStat
  have ht := replymsg_takes (m := (headed reply.into (reply.sent.msg.rmXid.setWidth 32) MsgType.reply).msg) rfl hv
  refine ⟨_, ⟨?_, rfl, ?_, hrec⟩, deserialize_reply_takes ht⟩
  · exact (setWidth_fits _).mpr reply.fits
  · simp only [Cflake.msg_setMsg, RpcMsg.rpStat_setBody, RpcMsg.rpStat_setRpStat]

end PipelinedReply

namespace Traffic

/-- The message to be sent. -/
def sent : Traffic R → Cflake FlexxdrMem α
  | .call m => m.sent
  | .reply m => m.sent

/-- The record into which it is received. -/
def into : Traffic R → Cflake FlexxdrMem α
  | .call m => m.into
  | .reply m => m.into

/-- The bytes of the message. -/
def wire : Traffic R → List Byte
  | .call m => m.wire
  | .reply m => m.wire

/-- The record holds the message that was sent. -/
def Carried : Traffic R → Cflake FlexxdrMem α → Prop
  | .call m, received => SameCall m.sent received
  | .reply m, received => SameReply m.sent received

theorem serialize_puts (t : Traffic R) : ∃ after,
    Puts (memStrm .encode) (fun X => cornflakeSerialize R X t.sent) after t.wire := by
  cases t with
  | call m => exact ⟨_, m.serialize_puts⟩
  | reply m => exact m.serialize_puts

theorem deserialize_takes (t : Traffic R) : ∃ received, t.Carried received ∧
    Takes (memStrm .decode) (fun X => cornflakeDeserialize R X t.into) received t.wire := by
  cases t with
  | call m => exact ⟨_, m.sameCall, m.deserialize_takes⟩
  | reply m => exact m.deserialize_takes

end Traffic

/-! ## A message that is cut short -/

/-- The procedure that is prepared for the results refuses them when they are cut short. -/
def ResultsStarve (st : Word) (ar into : ReplyBody FlexxdrMem α) (bytes : List Byte) : Prop :=
  st = ReplyStat.msgAccepted → ar.stat = AcceptStat.success → ∀ q addr dst, into.high = .proc q → into.low = .ptr addr dst →
    Starves (memStrm .decode) (fun X => q.code X dst) bytes

/-- The key of the record finds no schema, whatever direction is looked up. -/
def Cflake.Blank (R : Registry FlexxdrMem α) (cf : Cflake FlexxdrMem α) : Prop :=
  ∀ d, cornflakeGetSchema R cf.msg.cbProg cf.msg.cbVers cf.msg.cbProc d = none

/-- A call whose schema refuses arguments that are cut short, for a record without an old key; a reply whose procedure
refuses such results. -/
def Traffic.Strict : Traffic R → Prop
  | .call m => m.into.Blank R ∧ Starves (memStrm .decode) (fun X => m.schema.code X m.into.args) m.bytes
  | .reply m => ResultsStarve m.sent.msg.rpStat m.sent.msg.body m.into.msg.body m.bytes

/-- The end of the bytes lies in the four words after the direction of a call. -/
def Traffic.InHeader : Traffic R → Nat → Prop
  | .call _, n => 8 ≤ n ∧ n < 24
  | .reply _, _ => False

section Cut

variable {c : MemCursor} {q : List Byte} {ar into : ReplyBody FlexxdrMem α}

theorem versions_cut {v w : Word} (hq : q ≠ []) (h : words [v, w] = c.ahead ++ q) :
    Returns (flexxdrVersions (memStrm .decode c) ar) false := by
  have hl : (words [v, w]).length = c.room + q.length := by rw [h, List.length_append]; rfl
  have hp : 0 < q.length := List.length_pos_iff.mpr hq
  rw [length_words] at hl
  simp only [List.length_cons, List.length_nil] at hl
  rw [versions_returns, decide_eq_false (by omega)]

/-- A proper beginning of a reply is refused. -/
theorem ReplyArm.refuses_cut {st : Word} {bytes : List Byte} (h : ReplyArm st ar into bytes)
    (hs : ResultsStarve st ar into bytes) (d : Word) (hq : q ≠ [])
    (hc : toBytes st ++ (toBytes ar.stat ++ bytes) = c.ahead ++ q) :
    Returns (flexxdrUnion (memStrm .decode c) d into replyDscrm none) false := by
  rcases two_words_cases c.ahead with hlt | ⟨v, w, r, ha⟩
  · exact replyUnion_short d hlt
  · rw [ha, List.append_assoc] at hc
    obtain ⟨hv, hw, hb⟩ := two_words_inj (show words [st, ar.stat] ++ bytes = words [v, w] ++ (r ++ q) from hc)
    subst hv hw
    have h8 : (c.advance 8).ahead = r := by rw [Cursor.ahead_advance, ha]; rfl
    have hst : (into.setStat ar.stat).stat = ar.stat := ReplyBody.stat_setStat _ _
    rw [replyUnion_words d ha]
    cases h with
    | @success _ _ p q' addr addr' a a' dst _ stat proc result prepared place puts takes =>
      obtain ⟨v, c', hv⟩ := hs rfl stat q' addr' dst prepared place (c.advance 8) q hq (by rw [h8]; exact hb)
      have hres : flexxdrResults (memStrm .decode (c.advance 8)) (into.setStat ar.stat) = _ := results_eq prepared place
      rw [if_pos rfl, returns_onField, congrFun (acceptedArm_success (hst.trans stat)) _, hres, callProc_ok hv, onField_ok,
        returns_ok]
    | progMismatch stat low high =>
      rw [if_pos rfl, returns_onField, congrFun (acceptedArm_mismatch (hst.trans stat)) _]
      exact versions_cut hq (by rw [h8]; exact hb)
    | otherStat success progMismatch => exact absurd (List.append_eq_nil_iff.mp hb.symm).2 hq
    | rpcMismatch stat low high =>
      rw [if_neg (by decide), if_pos rfl, returns_onField, congrFun (rejectedArm_mismatch (hst.trans stat)) _]
      exact versions_cut hq (by rw [h8]; exact hb)

/-- So is a proper beginning of a reply with its header. -/
theorem PipelinedReply.refuses_cut (reply : PipelinedReply α) (hs : (Traffic.reply reply : Traffic R).Strict) (hq : q ≠ [])
    (hc : reply.wire = c.ahead ++ q) : Returns (cornflakeDeserialize R (memStrm .decode c) reply.into) false := by
  rcases two_words_cases c.ahead with hlt | ⟨v, w, r, ha⟩
  · obtain ⟨cf, c', -, hd⟩ := deserialize_short R reply.into hlt
    exact ⟨cf, memStrm .decode c', hd⟩
  · rw [ha, List.append_assoc] at hc
    obtain ⟨rfl, rfl, hb⟩ := two_words_inj (show words _ ++ reply.tail = words [v, w] ++ (r ++ q) from hc)
    rw [deserialize_other ha (by decide), deserializeReply_reply rfl, congrFun (replymsg_reply rfl) _, returns_onField]
    exact reply.arm.refuses_cut hs _ hq (by rw [ahead_header ha]; exact hb)

theorem PipelinedCall.wire_eq (call : PipelinedCall R) : call.wire = words [call.sent.msg.rmXid.setWidth 32, MsgType.call] ++
    (words (callWords (call.sent.msg.cbProg.setWidth 32) (call.sent.msg.cbVers.setWidth 32)
      (call.sent.msg.cbProc.setWidth 32)) ++ call.bytes) := by
  rw [← List.append_assoc, ← words_append]
  rfl

/-- After the six words the schema is called on what follows. -/
theorem PipelinedCall.deserialize_args (call : PipelinedCall R) {a : List Byte}
    (ha : c.ahead = words (callMessage call.sent.msg) ++ a) : ∃ msg : RpcMsg FlexxdrMem α,
      cornflakeDeserialize R (memStrm .decode c) call.into =
        andThen (onField (callProc (some call.schema) (memStrm .decode (c.advance 24)) call.into.args)
          (call.into.setMsg msg).setArgs) deserializeReply := by
  have hc : callMessage call.sent.msg = [call.sent.msg.rmXid.setWidth 32, MsgType.call] ++
      callWords (call.sent.msg.cbProg.setWidth 32) (call.sent.msg.cbVers.setWidth 32)
        (call.sent.msg.cbProc.setWidth 32) := rfl
  rw [hc, words_append, List.append_assoc] at ha
  obtain ⟨-, hfp, hfv⟩ := call.fits
  have hw : wireSchema R (call.sent.msg.cbProg.setWidth 32) (call.sent.msg.cbVers.setWidth 32)
      (call.sent.msg.cbProc.setWidth 32) = some call.schema := by
    rw [wireSchema, (setWidth_fits _).mpr hfp, (setWidth_fits _).mpr hfv, (setWidth_fits _).mpr call.procFits]
    exact call.resolves
  exact ⟨_, (deserialize_call R call.into ha).trans (by rw [select_good ha, hw, ok_bind]; rfl)⟩

/-- A call that ends before its direction is complete, or in its arguments, is refused. -/
theorem PipelinedCall.refuses_cut (call : PipelinedCall R)
    (hs : Starves (memStrm .decode) (fun X => call.schema.code X call.into.args) call.bytes) (hq : q ≠ [])
    (hc : call.wire = c.ahead ++ q) (hr : ¬ (8 ≤ c.room ∧ c.room < 24)) :
    Returns (cornflakeDeserialize R (memStrm .decode c) call.into) false := by
  by_cases h8 : c.room < 8
  · obtain ⟨cf, c', -, hd⟩ := deserialize_short R call.into h8
    exact ⟨cf, memStrm .decode c', hd⟩
  · have hw : (words (callMessage call.sent.msg)).length = 24 := by rw [length_words]; rfl
    rcases cut_cases (show words (callMessage call.sent.msg) ++ call.bytes = c.ahead ++ q from hc) with
      ⟨b, hb0, hb⟩ | ⟨a, ha, hb⟩
    · have hl := congrArg List.length hb
      have hp : 0 < b.length := List.length_pos_iff.mpr hb0
      rw [hw, List.length_append] at hl
      unfold Cursor.room at h8 hr
      omega
    · have hn : (c.advance 24).ahead = a := by
        rw [Cursor.ahead_advance, ha, ← hw, List.drop_left]
      obtain ⟨v, c', hv⟩ := hs (c.advance 24) q hq (by rw [hn]; exact hb)
      obtain ⟨msg, hd⟩ := call.deserialize_args ha
      rw [hd, callProc_ok hv, onField_ok, andThen_false, returns_ok]

/-- A call that ends in between stops the receiver. -/
theorem PipelinedCall.kills_cut (call : PipelinedCall R) (hs : call.into.Blank R) (hc : call.wire = c.ahead ++ q)
    (h₈ : 8 ≤ c.room) (h₂₄ : c.room < 24) :
    cornflakeDeserialize R (memStrm .decode c) call.into = .error .absentSchema := by
  rcases two_words_cases c.ahead with hlt | ⟨v, w, r, ha⟩
  · exact absurd hlt (Nat.not_lt.mpr h₈)
  · rw [call.wire_eq, ha, List.append_assoc] at hc
    obtain ⟨rfl, rfl, -⟩ := two_words_inj hc
    have hg : ¬ GoodCall r := by
      rintro ⟨prog, vers, proc, r', rfl⟩
      unfold Cursor.room at h₂₄
      rw [ha, List.length_append, List.length_append, length_words, length_words] at h₂₄
      simp only [callWords, List.length_cons, List.length_nil] at h₂₄
      omega
    rw [deserialize_call R call.into ha, select_stale ha hg, ok_bind]
    have hn : staleSchema R call.into.msg r = none := hs _
    simp only [hn]
    rfl

end Cut

/-! ## Sequences of messages -/

/-- The bytes of a sequence of messages. -/
def trafficWire (ts : List (Traffic R)) : List Byte := ts.flatMap Traffic.wire

/-- What a receiver makes of the first bytes of a sequence of messages. -/
inductive ReceivedUpTo : List (Traffic R) → Nat → Except Fault (Outcome FlexxdrMem (List (Cflake FlexxdrMem α))) → Prop
  | whole {ts : List (Traffic R)} {cfs : List (Cflake FlexxdrMem α)} {Y : Flexxdr FlexxdrMem}
      (carried : List.Forall₂ Traffic.Carried ts cfs) : ReceivedUpTo ts (trafficWire ts).length (.ok (true, cfs, Y))
  | refused {js ks : List (Traffic R)} {t : Traffic R} {n : Nat} {cfs : List (Cflake FlexxdrMem α)}
      {cf : Cflake FlexxdrMem α} {Y : Flexxdr FlexxdrMem} (carried : List.Forall₂ Traffic.Carried js cfs)
      (cut : n < t.wire.length) (outside : ¬ t.InHeader n) :
      ReceivedUpTo (js ++ t :: ks) ((trafficWire js).length + n) (.ok (false, cfs ++ cf :: ks.map Traffic.into, Y))
  | killed {js ks : List (Traffic R)} {t : Traffic R} {n : Nat} (inside : t.InHeader n) :
      ReceivedUpTo (js ++ t :: ks) ((trafficWire js).length + n) (.error .absentSchema)

theorem forall₂_carried {out : Traffic R → Cflake FlexxdrMem α} (h : ∀ t : Traffic R, t.Carried (out t))
    (ts : List (Traffic R)) : List.Forall₂ Traffic.Carried ts (ts.map out) := by
  rw [List.forall₂_map_right_iff]
  exact List.forall₂_same.mpr fun t _ => h t

/-- The message in which the bytes end. -/
theorem Traffic.cut {t : Traffic R} (hs : t.Strict) {c : MemCursor} {q : List Byte} (hq : q ≠ [])
    (hc : t.wire = c.ahead ++ q) :
    (t.InHeader c.room ∧ cornflakeDeserialize R (memStrm .decode c) t.into = .error .absentSchema) ∨
      ¬ t.InHeader c.room ∧ Returns (cornflakeDeserialize R (memStrm .decode c) t.into) false := by
  cases t with
  | call m =>
    by_cases hn : 8 ≤ c.room ∧ c.room < 24
    · exact Or.inl ⟨hn, m.kills_cut hs.1 hc hn.1 hn.2⟩
    · exact Or.inr ⟨hn, m.refuses_cut hs.2 hq hc hn⟩
  | reply m => exact Or.inr ⟨id, m.refuses_cut hs hq hc⟩

theorem received_upTo {ts : List (Traffic R)} (hs : ∀ t ∈ ts, t.Strict) {c : MemCursor} {q : List Byte}
    (hc : trafficWire ts = c.ahead ++ q) :
    ReceivedUpTo ts c.room (runAll (cornflakeDeserialize R) (memStrm .decode c) (ts.map Traffic.into)) := by
  choose out hout htakes using fun t : Traffic R => t.deserialize_takes
  by_cases hq : q = []
  · subst hq
    have hl : (trafficWire ts).length = c.room := by rw [hc, List.append_nil]; rfl
    have ht := Takes.list ts (fun t _ => htakes t) c [] (by rw [List.append_nil] at hc ⊢; exact hc.symm)
    simp only at ht
    rw [ht, ← hl]
    exact .whole (forall₂_carried hout ts)
  · obtain ⟨js, t, ks, c', p, rfl, hp, hw, ha, hrun⟩ := Takes.cut ts (fun t _ => htakes t) hq hc
    have hroom : c.room = (trafficWire js).length + c'.room := by
      unfold Cursor.room
      rw [ha, List.length_append]
      rfl
    have hlt : c'.room < t.wire.length := by
      have hpl : 0 < p.length := List.length_pos_iff.mpr hp
      rw [hw, List.length_append]
      unfold Cursor.room
      omega
    rw [hrun, hroom]
    rcases Traffic.cut (hs t (by simp)) hp hw with ⟨hin, hd⟩ | ⟨hout', cf, Y, hd⟩
    · rw [List.map_cons, runAll_error hd]
      exact .killed hin
    · rw [List.map_cons, runAll_refused hd]
      exact .refused (forall₂_carried hout js) hlt hout'

/-- A buffer in which the messages were written. -/
theorem buffer_puts {μ : Type} {f : Flexxdr FlexxdrMem → Except Fault (Outcome FlexxdrMem μ)} {v : μ} {bs : List Byte}
    (hf : Puts (memStrm .encode) f v bs) {buf : List Byte} (hb : buf.length < 2 ^ 32) (hr : bs.length ≤ buf.length) :
    ∃ X, f (flexxdrmemCreate buf (.ofNat 32 buf.length) .encode) = .ok (true, v, X) ∧
      X.strm.fBase = bs ++ buf.drop bs.length := by
  refine ⟨memStrm .encode ((MemCursor.ofBuffer buf hb).write bs), ?_, ?_⟩
  · rw [create_eq_memStrm .encode buf hb]
    exact hf _ hr
  · simp [memStrm, MemCursor.ofBuffer, Cursor.cells, Cursor.write]

/-- **Of calls and replies in one buffer, every beginning is received up to the message in which it ends.** -/
theorem traffic_received (R : Registry FlexxdrMem α) (ts : List (Traffic R)) (hs : ∀ t ∈ ts, t.Strict) (buf : List Byte)
    (hb : buf.length < 2 ^ 32) (hr : (trafficWire ts).length ≤ buf.length) :
    ∃ after X, runAll (cornflakeSerialize R) (flexxdrmemCreate buf (.ofNat 32 buf.length) .encode) (ts.map Traffic.sent) =
        .ok (true, after, X) ∧
      ∀ n ≤ (trafficWire ts).length, ReceivedUpTo ts n (runAll (cornflakeDeserialize R)
        (flexxdrmemCreate (X.strm.fBase.take n) (.ofNat 32 n) .decode) (ts.map Traffic.into)) := by
  choose after hafter using fun t : Traffic R => t.serialize_puts
  obtain ⟨X, hX, hbase⟩ := buffer_puts (Puts.list ts fun t _ => hafter t) hb hr
  refine ⟨ts.map after, X, hX, fun n hn => ?_⟩
  have ht : X.strm.fBase.take n = (trafficWire ts).take n := by
    rw [hbase]
    exact List.take_append_of_le_length hn
  have hl : ((trafficWire ts).take n).length = n := by rw [List.length_take]; omega
  have h32 : ((trafficWire ts).take n).length < 2 ^ 32 := by omega
  have hc := create_eq_memStrm .decode _ h32
  rw [hl] at hc
  rw [ht, hc]
  have hu := received_upTo hs (c := MemCursor.ofBuffer _ h32) (q := (trafficWire ts).drop n)
    (List.take_append_drop n _).symm
  have hroom : (MemCursor.ofBuffer ((trafficWire ts).take n) h32).room = n := hl
  rw [hroom] at hu
  exact hu

/-- A call of the service with one word, and its reply. -/
def wordTraffic : List (Traffic wordService) :=
  [.call (wordCall 5), .reply ⟨wordReply 5, wordReply 0, toBytes 5, rfl, by decide, wordReply_arm⟩]

theorem blank_wordCall (w : Word) : (wordCall w).into.Blank wordService := by
  intro d
  refine (getSchema_registerAll ?_ [] _ _ _ d).trans (if_neg ?_)
  · decide
  · show ((1, 1, 1) : ULong × ULong × ULong) ≠ (0, 0, 0)
    decide

theorem strict_wordTraffic : ∀ t ∈ wordTraffic, t.Strict := by
  intro t ht
  rcases List.mem_pair.mp ht with rfl | rfl
  · exact ⟨blank_wordCall 5, enum_starves 0 5⟩
  · intro _ _ q addr dst hq hd
    cases hq
    cases hd
    exact enum_starves 0 5

theorem traffic_received_wordTraffic :
    ∃ after X, runAll (cornflakeSerialize wordService) (flexxdrmemCreate (List.replicate 60 0) (.ofNat 32 60) .encode)
        (wordTraffic.map Traffic.sent) = .ok (true, after, X) ∧
      ∀ n ≤ (trafficWire wordTraffic).length, ReceivedUpTo wordTraffic n (runAll (cornflakeDeserialize wordService)
        (flexxdrmemCreate (X.strm.fBase.take n) (.ofNat 32 n) .decode) (wordTraffic.map Traffic.into)) :=
  traffic_received wordService wordTraffic strict_wordTraffic (List.replicate 60 0) (by decide) (by decide)

end Cornflakes

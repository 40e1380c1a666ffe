import Cornflakes.Wire.Run
import Cornflakes.Deserialize

/-!
# Receiving one message after another into one record

The server decodes every message into the record of the one before. A record in which nobody stored a result procedure
stays such a record (`keeps_noProc`), whatever is received. Each message is `Guarded`, that is, calls no result
procedure and is refused if it is a reply, exactly when it is `Harmless` (`guarded_iff`); so a whole sequence of messages is
guarded exactly when each of them is harmless for the record as it finds it (`throughout_guarded_iff`).
-/

set_option autoImplicit false

namespace Cornflakes

open Wire Flexrpc

variable {α : Type}

section

variable (R : Registry FlexxdrMem α)

/-- Receive the bytes ahead of a cursor, with arguments for the schema, into the record `m`. -/
def receive (m : RpcMsg FlexxdrMem α) (i : MemCursor × α) : Except Fault (Outcome FlexxdrMem (Cflake FlexxdrMem α)) :=
  cornflakeDeserialize R (memStrm .decode i.1) ⟨m, i.2⟩

/-- The record after a message, if its reception returns. -/
def receiveStep (m : RpcMsg FlexxdrMem α) (i : MemCursor × α) : Option (RpcMsg FlexxdrMem α) :=
  match receive R m i with
  | .ok (_, cf, _) => some cf.msg
  | .error _ => none

/-- No result procedure is called, and a reply is refused. -/
structure Guarded (m : RpcMsg FlexxdrMem α) (i : MemCursor × α) : Prop where
  noCall : receive R m i ≠ .error .wildProc
  refuses : ∀ xid rest, i.1.ahead = words [xid, MsgType.reply] ++ rest → Returns (receive R m i) false

/-- A reply that is refused for its statuses, or no reply. A bad call header that ends in the word REPLY is taken for a
reply if the schema of the old key accepts; then the stream that this schema leaves must not ask for results. -/
structure Harmless (m : RpcMsg FlexxdrMem α) (i : MemCursor × α) : Prop where
  reply : ∀ xid rest, i.1.ahead = words [xid, MsgType.reply] ++ rest → RefusedReply rest
  call : ∀ xid rest s args X, i.1.ahead = words [xid, MsgType.call] ++ rest → ¬ GoodCall rest →
    reread rest = MsgType.reply → staleSchema R m rest = some s →
    s.code (memStrm .decode (staleLeft i.1 ⟨m, i.2⟩ xid).1) i.2 = .ok (true, args, X) →
    ¬ AsksForResults X (staleLeft i.1 ⟨m, i.2⟩ xid).2

end

section Step

variable {R : Registry FlexxdrMem α} {m : RpcMsg FlexxdrMem α} {i : MemCursor × α}

theorem receive_short (h : i.1.room < 8) : ∃ cf c', cf.msg.body = m.body ∧
    receive R m i = .ok (false, cf, memStrm .decode c') := deserialize_short R ⟨m, i.2⟩ h

theorem receive_reply {xid : Word} {rest : List Byte} (h : i.1.ahead = words [xid, MsgType.reply] ++ rest) :
    receive R m i = onField (flexxdrReplymsg (memStrm .decode (i.1.advance 8)) (headed ⟨m, i.2⟩ xid MsgType.reply).msg)
      (headed ⟨m, i.2⟩ xid MsgType.reply).setMsg :=
  (deserialize_other h (by decide)).trans (deserializeReply_eq rfl)

theorem receive_other {xid d : Word} {rest : List Byte} (h : i.1.ahead = words [xid, d] ++ rest)
    (hc : d ≠ MsgType.call) (hr : d ≠ MsgType.reply) :
    receive R m i = .ok (true, headed ⟨m, i.2⟩ xid d, memStrm .decode (i.1.advance 8)) :=
  (deserialize_other h hc).trans (deserializeReply_other hr)

/-- A good call ends with the schema: its direction is CALL, so the reply branch is not taken. -/
theorem receive_good {xid prog vers proc : Word} {rest : List Byte}
    (h : i.1.ahead = words [xid, MsgType.call] ++ (words (callWords prog vers proc) ++ rest)) :
    receive R m i = onField (callProc (wireSchema R prog vers proc) (memStrm .decode (i.1.advance 24)) i.2)
      fun args => ⟨((m.setRmXid (xid.setWidth 64)).setRmDirection MsgType.call).setCall prog vers proc, args⟩ := by
  unfold receive
  rw [deserialize_call _ _ h, select_good h, ok_bind]
  simp only [Cflake.setMsg]
  rcases callProc (wireSchema R prog vers proc) (memStrm .decode (i.1.advance 24)) i.2 with f | ⟨ok, args, X⟩
  · rfl
  · cases ok with
    | false => rfl
    | true =>
      rw [onField_ok, andThen_true, deserializeReply_other (by intro e; cases e)]
      rfl

theorem receive_stale {xid : Word} {rest : List Byte} (h : i.1.ahead = words [xid, MsgType.call] ++ rest)
    (hg : ¬ GoodCall rest) :
    receive R m i = andThen
      (onField (callProc (staleSchema R m rest) (memStrm .decode (staleLeft i.1 ⟨m, i.2⟩ xid).1) i.2)
        fun args => ⟨(staleLeft i.1 ⟨m, i.2⟩ xid).2, args⟩) deserializeReply := by
  unfold receive
  rw [deserialize_call _ _ h, select_stale h hg]
  rfl

theorem staleLeft_body (c : MemCursor) (cf : Cflake FlexxdrMem α) (xid : Word) :
    (staleLeft c cf xid).2.body = cf.msg.body := body_callmsgLeft _ _

theorem staleLeft_direction {c : MemCursor} (cf : Cflake FlexxdrMem α) {xid : Word} {rest : List Byte}
    (h : c.ahead = words [xid, MsgType.call] ++ rest) : (staleLeft c cf xid).2.rmDirection = reread rest := by
  rw [← ahead_header h]
  exact rmDirection_callmsgLeft _ _ rfl

/-- Whatever is received, no result procedure gets into the record. -/
theorem receive_noProc (hm : m.body.NoProc) :
    Leaves (fun cf : Cflake FlexxdrMem α => cf.msg.body.NoProc) (receive R m i) := by
  rcases two_words_cases i.1.ahead with hs | ⟨xid, d, rest, h⟩
  · obtain ⟨cf, c', hb, hr⟩ := receive_short (R := R) (m := m) hs
    rw [hr]
    refine Leaves.ok ?_
    rw [hb]
    exact hm
  · by_cases hr : d = MsgType.reply
    · subst hr
      rw [receive_reply h]
      have hb : (headed ⟨m, i.2⟩ xid MsgType.reply).msg.body.NoProc := hm
      exact Leaves.onField (replymsg_noProc hb) fun _ hv => hv
    · by_cases hc : d = MsgType.call
      · subst hc
        by_cases hg : GoodCall rest
        · obtain ⟨prog, vers, proc, r, rfl⟩ := hg
          rw [receive_good h]
          exact Leaves.onField (Leaves.any _) fun _ _ => Slot.IsWord.store hm _
        · rw [receive_stale h hg]
          have hb : (staleLeft i.1 ⟨m, i.2⟩ xid).2.body.NoProc := by
            rw [staleLeft_body]
            exact hm
          refine Leaves.andThen (Leaves.onField (Leaves.any _) fun _ _ => hb) fun X cf hcf => ?_
          unfold deserializeReply
          split
          · exact Leaves.onField (replymsg_noProc hcf) fun _ hv => hv
          · exact Leaves.ok hcf
      · rw [receive_other h hc hr]
        exact Leaves.ok hm

/-- A record without a result procedure stays one. -/
theorem keeps_noProc : Keeps (receiveStep R) fun m => m.body.NoProc := by
  intro m i m' hm hstep
  unfold receiveStep at hstep
  rcases hr : receive R m i with f | ⟨b, cf, X⟩
  · rw [hr] at hstep
    cases hstep
  · rw [hr] at hstep
    cases hstep
    exact receive_noProc hm b cf X hr

/-! ## One message -/

theorem refuses_reply_iff (hm : m.body.NoProc) {xid : Word} {rest : List Byte}
    (h : i.1.ahead = words [xid, MsgType.reply] ++ rest) : Returns (receive R m i) false ↔ RefusedReply rest := by
  have hn : (headed ⟨m, i.2⟩ xid MsgType.reply).msg.body.NoProc := hm
  rw [receive_reply h, returns_onField, replymsg_refuses_iff rfl hn, ahead_header h]

/-- A bad call header gets to a result procedure exactly when the direction was read again as REPLY, the schema of the
old key accepts, and the stream asks for results. -/
theorem stale_wild_iff (hm : m.body.NoProc) {xid : Word} {rest : List Byte}
    (h : i.1.ahead = words [xid, MsgType.call] ++ rest) (hg : ¬ GoodCall rest) :
    receive R m i = .error .wildProc ↔ reread rest = MsgType.reply ∧ ∃ s args X, staleSchema R m rest = some s ∧
      s.code (memStrm .decode (staleLeft i.1 ⟨m, i.2⟩ xid).1) i.2 = .ok (true, args, X) ∧
      AsksForResults X (staleLeft i.1 ⟨m, i.2⟩ xid).2 := by
  have hd := staleLeft_direction ⟨m, i.2⟩ h
  have hn : (staleLeft i.1 ⟨m, i.2⟩ xid).2.body.NoProc := by
    rw [staleLeft_body]
    exact hm
  rw [receive_stale h hg]
  constructor
  · intro hw
    rcases hc : callProc (staleSchema R m rest) (memStrm .decode (staleLeft i.1 ⟨m, i.2⟩ xid).1) i.2 with
      f | ⟨ok, args, X⟩
    · rw [hc] at hw
      cases hw
      exact absurd hc (callProc_ne_wild _ _ _)
    · rw [hc, onField_ok] at hw
      cases ok with
      | false => cases hw
      | true =>
        rw [andThen_true] at hw
        by_cases hy : reread rest = MsgType.reply
        · obtain ⟨s, hs, hcode⟩ := exists_of_callProc hc
          rw [deserializeReply_eq (hd.trans hy), onField_error_iff, replymsg_wild_iff (hd.trans hy) hn] at hw
          exact ⟨hy, s, args, X, hs, hcode, hw⟩
        · rw [deserializeReply_other (by rw [← hd] at hy; exact hy)] at hw
          cases hw
  · rintro ⟨hy, s, args, X, hs, hcode, hask⟩
    rw [hs, callProc_ok hcode, onField_ok, andThen_true, deserializeReply_eq (hd.trans hy), onField_error_iff,
      replymsg_wild_iff (hd.trans hy) hn]
    exact hask

theorem guarded_iff (hm : m.body.NoProc) : Guarded R m i ↔ Harmless R m i := by
  constructor
  · intro hgd
    refine ⟨fun xid rest h => (refuses_reply_iff hm h).mp (hgd.refuses xid rest h), ?_⟩
    intro xid rest s args X h hg hy hs hcode hask
    exact hgd.noCall ((stale_wild_iff hm h hg).mpr ⟨hy, s, args, X, hs, hcode, hask⟩)
  · intro hh
    refine ⟨?_, fun xid rest h => (refuses_reply_iff hm h).mpr (hh.reply xid rest h)⟩
    rcases two_words_cases i.1.ahead with hs | ⟨xid, d, rest, h⟩
    · obtain ⟨cf, c', -, hr⟩ := receive_short (R := R) (m := m) hs
      rw [hr]
      exact fun he => by cases he
    · by_cases hr : d = MsgType.reply
      · subst hr
        obtain ⟨cf, X, hf⟩ := (refuses_reply_iff hm h).mpr (hh.reply xid rest h)
        rw [hf]
        exact fun he => by cases he
      · by_cases hc : d = MsgType.call
        · subst hc
          by_cases hg : GoodCall rest
          · obtain ⟨prog, vers, proc, r, rfl⟩ := hg
            rw [receive_good h]
            exact fun he => callProc_ne_wild _ _ _ ((onField_error_iff _ _ _).mp he)
          · intro hw
            obtain ⟨hy, s, args, X, hs, hcode, hask⟩ := (stale_wild_iff hm h hg).mp hw
            exact hh.call xid rest s args X h hg hy hs hcode hask
        · rw [receive_other h hc hr]
          exact fun he => by cases he

/-! ## Sequences of messages -/

/-- **In every sequence of messages into one record without a result procedure, none calls a result procedure and every
reply is refused, if and only if each message is harmless for the record as it finds it.** -/
theorem throughout_guarded_iff (R : Registry FlexxdrMem α) (m : RpcMsg FlexxdrMem α) (hm : m.body.NoProc)
    (is : List (MemCursor × α)) :
    Throughout (receiveStep R) (Guarded R) m is ↔ Throughout (receiveStep R) (Harmless R) m is :=
  Throughout.congr keeps_noProc (fun _ _ h => guarded_iff h) hm is

end Step

/-- A service whose procedure number is that of an address. -/
def serviceAt4096 : Registry FlexxdrMem Unit := registerAll [⟨1, 1, 4096, some (voidProc 8192), none, 0⟩]

/-- A call of it. -/
def callOf4096 : MemCursor × Unit := (.ofBuffer (words [1, MsgType.call, 8, 1, 1, 4096]) (by decide), ())

/-- A reply with results. -/
def resultsReply : MemCursor × Unit :=
  (.ofBuffer (words [2, MsgType.reply, ReplyStat.msgAccepted, AcceptStat.success]) (by decide), ())

theorem throughout_guarded_iff_two :
    Throughout (receiveStep serviceAt4096) (Guarded serviceAt4096) .zeros [callOf4096, resultsReply] ↔
      Throughout (receiveStep serviceAt4096) (Harmless serviceAt4096) .zeros [callOf4096, resultsReply] :=
  throughout_guarded_iff serviceAt4096 .zeros ⟨0, rfl⟩ [callOf4096, resultsReply]

/-- The reply calls through the place where the call left its procedure number. -/
theorem results_called_at_proc :
    ¬ Throughout (receiveStep serviceAt4096) (Guarded serviceAt4096) .zeros [callOf4096, resultsReply] := by
  rintro ⟨-, hnext⟩
  have h1 : callOf4096.1.ahead = words [1, MsgType.call] ++ (words (callWords 1 1 4096) ++ []) := rfl
  have hs : receiveStep serviceAt4096 .zeros callOf4096 =
      some (((RpcMsg.zeros.setRmXid 1).setRmDirection MsgType.call).setCall 1 1 4096) := by
    unfold receiveStep
    rw [receive_good h1]
    rfl
  have h2 : resultsReply.1.ahead =
      words [2, MsgType.reply] ++ words [ReplyStat.msgAccepted, AcceptStat.success] := rfl
  apply (hnext _ hs).1.noCall
  rw [receive_reply h2, onField_error_iff, replymsg_wild_iff rfl ⟨4096, rfl⟩]
  exact ⟨_, _, enum_decode _ (ahead_header h2), enum_decode _ (congrArg (List.drop 4) (ahead_header h2))⟩

end Cornflakes

import Cornflakes.RoundTrip

/-!
# The header of a reply that was sent

`cornflake_serialize` drops the result of `cornflake_peek_header`. When the transaction id does not fit in a word the
header is left out, and the function goes on with the body in its place.

- `replymsg_encodes_iff`: what a reply body needs to be encoded at a place (`ReplyFits`);
- `carriesHeader_iff`: a reply reported as sent carries its header if and only if its transaction id fits in a word or
  the body fails where the header should be.
-/

set_option autoImplicit false

namespace Cornflakes

open Wire Flexrpc

variable {α : Type}

/-! ## Where a reply body can be encoded -/

/-- The bounds of a mismatch fit in words. -/
def BoundsFit {σ : Type} (ar : ReplyBody σ α) : Prop := ar.versLow.toNat < 2 ^ 32 ∧ ar.versHigh.toNat < 2 ^ 32

/-- At `c` the result procedure finds two words of room before it and then returns TRUE. -/
def ResultsFit (c : MemCursor) (m : RpcMsg FlexxdrMem α) : Prop :=
  8 ≤ c.room ∧ ∃ p, m.body.high = .proc p ∧
    Returns (p.onSlot.code (memStrm .encode (c.write (words [m.rpStat, m.body.stat]))) m.body.low) true

/-- What the arms of an accepted reply need at `c`. -/
def AcceptedFits (c : MemCursor) (m : RpcMsg FlexxdrMem α) : Prop :=
  m.body.stat = AcceptStat.success ∧ ResultsFit c m ∨
    m.body.stat = AcceptStat.progMismatch ∧ BoundsFit m.body ∧ 16 ≤ c.room ∨
    m.body.stat ≠ AcceptStat.success ∧ m.body.stat ≠ AcceptStat.progMismatch ∧ 8 ≤ c.room

/-- An accepted reply whose arm can be encoded at `c`, or a rejected one for RPC_MISMATCH with bounds that fit. -/
def ReplyFits (c : MemCursor) (m : RpcMsg FlexxdrMem α) : Prop :=
  m.rpStat = ReplyStat.msgAccepted ∧ AcceptedFits c m ∨
    m.rpStat = ReplyStat.msgDenied ∧ m.body.stat = RejectStat.rpcMismatch ∧ BoundsFit m.body ∧ 16 ≤ c.room

theorem ReplyFits.room {c : MemCursor} {m : RpcMsg FlexxdrMem α} (h : ReplyFits c m) : 8 ≤ c.room := by
  rcases h with ⟨-, ⟨-, h, -⟩ | ⟨-, -, h⟩ | ⟨-, -, h⟩⟩ | ⟨-, -, -, h⟩ <;> omega

section Encodes

variable {c : MemCursor} {ar : ReplyBody FlexxdrMem α}

theorem versions_encodes_iff : Returns (flexxdrVersions (memStrm .encode c) ar) true ↔ BoundsFit ar ∧ 8 ≤ c.room := by
  by_cases hl : ar.versLow.toNat < 2 ^ 32 ∧ 4 ≤ c.room
  · obtain ⟨hl, hr⟩ := hl
    have hw : (c.write (toBytes (ar.versLow.setWidth 32))).room = c.room - 4 := by
      rw [Cursor.room_write, length_toBytes]
    rw [flexxdrVersions, uLong_encode hl hr, onField_ok, andThen_true, ReplyBody.setVersLow_versLow]
    by_cases hh : ar.versHigh.toNat < 2 ^ 32 ∧ 8 ≤ c.room
    · rw [uLong_encode hh.1 (by omega), onField_ok, returns_ok]
      exact iff_of_true rfl ⟨⟨hl, hh.1⟩, hh.2⟩
    · rw [uLong_refused (by rw [hw]; exact fun h => hh ⟨h.1, by omega⟩), onField_ok, returns_ok]
      exact iff_of_false (by simp) fun h => hh ⟨h.1.2, h.2⟩
  · rw [flexxdrVersions, uLong_refused hl, onField_ok, andThen_false, returns_ok]
    exact iff_of_false (by simp) fun h => hl ⟨h.1.1, by omega⟩

theorem results_encodes_iff : Returns (flexxdrResults (memStrm .encode c) ar) true ↔
    ∃ p, ar.high = .proc p ∧ Returns (p.onSlot.code (memStrm .encode c) ar.low) true := by
  unfold flexxdrResults
  constructor
  · intro h
    split at h
    · next p hp =>
      rw [returns_onField, returns_callProc] at h
      exact ⟨p, hp, h⟩
    · exact absurd h (not_returns_error _ _)
  · rintro ⟨p, hp, h⟩
    rw [hp]
    simp only [returns_onField, returns_callProc]
    exact h

/-- The status of a reply body, then its arm. -/
theorem status_encodes_iff {arm : Flexxdr FlexxdrMem → ReplyBody FlexxdrMem α →
      Except Fault (Outcome FlexxdrMem (ReplyBody FlexxdrMem α))} :
    Returns (andThen (onField (flexxdrEnum (memStrm .encode c) ar.stat) ar.setStat) arm) true ↔
      4 ≤ c.room ∧ Returns (arm (memStrm .encode (c.write (toBytes ar.stat))) ar) true := by
  by_cases hr : 4 ≤ c.room
  · rw [enum_encode _ hr, onField_ok, andThen_true, ReplyBody.setStat_stat]
    exact ⟨fun h => ⟨hr, h⟩, fun h => h.2⟩
  · rw [enum_full _ (by omega), onField_ok, andThen_false, returns_ok]
    exact iff_of_false (by simp) fun h => hr h.1

theorem rejected_encodes_iff : Returns (flexxdrRejectedReply (memStrm .encode c) ar) true ↔
    ar.stat = RejectStat.rpcMismatch ∧ BoundsFit ar ∧ 12 ≤ c.room := by
  rw [flexxdrRejectedReply, status_encodes_iff]
  unfold rejectedArm
  by_cases hs : ar.stat = RejectStat.rpcMismatch
  · rw [if_pos hs, versions_encodes_iff, Cursor.room_write, length_toBytes]
    exact ⟨fun h => ⟨hs, h.2.1, by omega⟩, fun h => ⟨by omega, h.2.1, by omega⟩⟩
  · rw [if_neg hs, returns_ok]
    exact iff_of_false (by simp) fun h => hs h.1

end Encodes

section Replymsg

variable {c : MemCursor} {m : RpcMsg FlexxdrMem α}

theorem accepted_encodes_iff (hr : 4 ≤ c.room) :
    Returns (flexxdrAcceptedReply (memStrm .encode (c.write (toBytes m.rpStat))) m.body) true ↔ AcceptedFits c m := by
  have hroom : (c.write (toBytes m.rpStat)).room = c.room - 4 := by rw [Cursor.room_write, length_toBytes]
  have hw : (c.write (toBytes m.rpStat)).write (toBytes m.body.stat) = c.write (words [m.rpStat, m.body.stat]) := by
    rw [Cursor.write_write]
    rfl
  rw [flexxdrAcceptedReply, status_encodes_iff, hw, hroom]
  unfold acceptedArm AcceptedFits
  by_cases hs : m.body.stat = AcceptStat.success
  · have hm : m.body.stat ≠ AcceptStat.progMismatch := by rw [hs]; decide
    rw [if_pos hs, results_encodes_iff]
    constructor
    · rintro ⟨h4, hp⟩
      exact Or.inl ⟨hs, by omega, hp⟩
    · rintro (⟨-, h8, hp⟩ | ⟨h, -⟩ | ⟨h, -⟩)
      · exact ⟨by omega, hp⟩
      · exact absurd h hm
      · exact absurd hs h
  · by_cases hm : m.body.stat = AcceptStat.progMismatch
    · rw [if_neg hs, if_pos hm, versions_encodes_iff, Cursor.room_write, length_words]
      simp only [List.length_cons, List.length_nil]
      constructor
      · rintro ⟨h4, hb, h8⟩
        exact Or.inr (Or.inl ⟨hm, hb, by omega⟩)
      · rintro (⟨h, -⟩ | ⟨-, hb, h16⟩ | ⟨-, h, -⟩)
        · exact absurd h hs
        · exact ⟨by omega, hb, by omega⟩
        · exact absurd hm h
    · rw [if_neg hs, if_neg hm, returns_ok]
      constructor
      · rintro ⟨h4, -⟩
        exact Or.inr (Or.inr ⟨hs, hm, by omega⟩)
      · rintro (⟨h, -⟩ | ⟨h, -⟩ | ⟨-, -, h8⟩)
        · exact absurd h hs
        · exact absurd h hm
        · exact ⟨by omega, rfl⟩

/-- A reply body is encoded at `c` exactly when it fits there. -/
theorem replymsg_encodes_iff (hd : m.rmDirection = MsgType.reply) :
    Returns (flexxdrReplymsg (memStrm .encode c) m) true ↔ ReplyFits c m := by
  rw [congrFun (replymsg_reply hd) _, returns_onField]
  by_cases hr : 4 ≤ c.room
  · rw [replyUnion_arm (enum_encode m.rpStat hr)]
    unfold ReplyFits
    by_cases ha : m.rpStat = ReplyStat.msgAccepted
    · have hj : m.rpStat ≠ ReplyStat.msgDenied := by rw [ha]; decide
      rw [if_pos ha, returns_onField, accepted_encodes_iff hr]
      exact ⟨fun h => Or.inl ⟨ha, h⟩, fun h => (h.resolve_right fun h => hj h.1).2⟩
    · by_cases hj : m.rpStat = ReplyStat.msgDenied
      · rw [if_neg ha, if_pos hj, returns_onField, rejected_encodes_iff, Cursor.room_write, length_toBytes]
        constructor
        · rintro ⟨hs, hb, h12⟩
          exact Or.inr ⟨hj, hs, hb, by omega⟩
        · rintro (⟨h, -⟩ | ⟨-, hs, hb, h16⟩)
          · exact absurd h ha
          · exact ⟨hs, hb, by omega⟩
      · rw [if_neg ha, if_neg hj, returns_ok]
        refine iff_of_false (by simp) ?_
        rintro (⟨h, -⟩ | ⟨h, -⟩)
        · exact ha h
        · exact hj h
  · rw [union_full (enum_full m.rpStat (by omega)), returns_ok]
    exact iff_of_false (by simp) fun h => absurd h.room (by omega)

end Replymsg

/-! ## A reply body only appends -/

section Appends

/-- The result procedure leaves alone what was written before the results. -/
def ResultsAppend (ar : ReplyBody FlexxdrMem α) : Prop :=
  ∀ p, ar.high = .proc p → Appends (memStrm .encode) fun X => p.onSlot.code X ar.low

theorem enum_appends (ep : Word) : Appends (memStrm .encode) fun X => flexxdrEnum X ep := by
  intro c b v X h
  by_cases hr : 4 ≤ c.room
  · simp only [enum_encode ep hr] at h
    cases h
    exact ⟨_, toBytes ep, rfl, c.before_write _⟩
  · simp only [enum_full ep (show c.room < 4 by omega)] at h
    cases h
    exact ⟨c, [], rfl, by rw [List.append_nil]⟩

theorem uLong_appends (ulp : ULong) : Appends (memStrm .encode) fun X => flexxdrULong X ulp := by
  intro c b v X h
  by_cases hu : ulp.toNat < 2 ^ 32 ∧ 4 ≤ c.room
  · simp only [uLong_encode hu.1 hu.2] at h
    cases h
    exact ⟨_, toBytes (ulp.setWidth 32), rfl, c.before_write _⟩
  · simp only [uLong_refused hu] at h
    cases h
    exact ⟨c, [], rfl, by rw [List.append_nil]⟩

theorem versions_appends (ar : ReplyBody FlexxdrMem α) :
    Appends (memStrm .encode) fun X => flexxdrVersions X ar :=
  ((uLong_appends ar.versLow).onField ar.setVersLow).andThen (fun _ => Leaves.any _) fun ar' _ =>
    (uLong_appends ar'.versHigh).onField ar'.setVersHigh

theorem callProc_appends {p : FlexxdrProc FlexxdrMem α} {a : α} (h : Appends (memStrm .encode) fun X => p.code X a) :
    Appends (memStrm .encode) fun X => callProc (some p) X a := by
  intro c b v X hc
  obtain ⟨q, hq, hcode⟩ := exists_of_callProc hc
  cases hq
  exact h c b v X hcode

theorem results_appends {ar : ReplyBody FlexxdrMem α} (h : ResultsAppend ar) :
    Appends (memStrm .encode) fun X => flexxdrResults X ar := by
  unfold flexxdrResults
  cases hp : ar.high with
  | proc p => exact (callProc_appends (h p hp)).onField _
  | word w => exact Appends.error _
  | ptr addr a => exact Appends.error _

theorem acceptedArm_appends {ar : ReplyBody FlexxdrMem α} (h : ResultsAppend ar) :
    Appends (memStrm .encode) fun X => acceptedArm X ar := by
  unfold acceptedArm
  by_cases hs : ar.stat = AcceptStat.success
  · simp only [if_pos hs]
    exact results_appends h
  · by_cases hm : ar.stat = AcceptStat.progMismatch
    · simp only [if_neg hs, if_pos hm]
      exact versions_appends ar
    · simp only [if_neg hs, if_neg hm]
      exact Appends.nothing _ _

theorem rejectedArm_appends (rr : ReplyBody FlexxdrMem α) :
    Appends (memStrm .encode) fun X => rejectedArm X rr := by
  unfold rejectedArm
  by_cases hs : rr.stat = RejectStat.rpcMismatch
  · simp only [if_pos hs]
    exact versions_appends rr
  · simp only [if_neg hs]
    exact Appends.nothing _ _

theorem accepted_appends {ar : ReplyBody FlexxdrMem α} (h : ResultsAppend ar) :
    Appends (memStrm .encode) fun X => flexxdrAcceptedReply X ar := by
  have hset (w : Word) : ResultsAppend (ar.setStat w) := h
  exact ((enum_appends ar.stat).onField ar.setStat).andThen
    (fun _ => Leaves.onField (Leaves.any _) fun w _ => hset w) fun _ => acceptedArm_appends

theorem rejected_appends (rr : ReplyBody FlexxdrMem α) :
    Appends (memStrm .encode) fun X => flexxdrRejectedReply X rr :=
  ((enum_appends rr.stat).onField rr.setStat).andThen (fun _ => Leaves.any _) fun rr' _ => rejectedArm_appends rr'

theorem replyUnion_appends (st : Word) {ar : ReplyBody FlexxdrMem α} (h : ResultsAppend ar) :
    Appends (memStrm .encode) fun X => flexxdrUnion X st ar replyDscrm none := by
  intro c b u X hu
  by_cases hr : 4 ≤ c.room
  · simp only [replyUnion_arm (enum_encode st hr)] at hu
    have hput : Appends (memStrm .encode) fun X =>
        if st = ReplyStat.msgAccepted then onField (flexxdrAcceptedReply X ar) (st, ·)
        else if st = ReplyStat.msgDenied then onField (flexxdrRejectedReply X ar) (st, ·)
        else .ok (false, (st, ar), X) := by
      split
      · exact (accepted_appends h).onField _
      · split
        · exact (rejected_appends ar).onField _
        · exact Appends.nothing _ _
    obtain ⟨c', bs, rfl, hb⟩ := hput _ b u X hu
    exact ⟨c', toBytes st ++ bs, rfl, by rw [hb, Cursor.before_write, List.append_assoc]⟩
  · simp only [union_full (enum_full st (show c.room < 4 by omega))] at hu
    cases hu
    exact ⟨c, [], rfl, by rw [List.append_nil]⟩

theorem replymsg_appends {m : RpcMsg FlexxdrMem α} (hd : m.rmDirection = MsgType.reply)
    (h : ResultsAppend m.body) : Appends (memStrm .encode) fun X => flexxdrReplymsg X m := by
  rw [replymsg_reply hd]
  exact (replyUnion_appends m.rpStat h).onField _

end Appends

/-! ## The header before it -/

section Header

variable {R : Registry FlexxdrMem α} {c : MemCursor} {cf : Cflake FlexxdrMem α}

/-- If `cornflake_serialize` returns TRUE, two words come first, the transaction id and REPLY; the body is what
`flexxdr_replymsg` makes of the stream after them, so that its bytes follow theirs. -/
def CarriesHeader (R : Registry FlexxdrMem α) (c : MemCursor) (cf : Cflake FlexxdrMem α) : Prop :=
  ∀ cf' X, cornflakeSerialize R (memStrm .encode c) cf = .ok (true, cf', X) →
    8 ≤ c.room ∧ ∃ w m, w.setWidth 64 = cf.msg.rmXid ∧
      flexxdrReplymsg (memStrm .encode (c.write (words [w, MsgType.reply]))) cf.msg = .ok (true, m, X) ∧
      cf' = cf.setMsg m ∧
      (ResultsAppend cf.msg.body → ∃ body, Wrote c X (words [w, MsgType.reply] ++ body))

/-- Without room for both its words the header is not written, and less room is left than there was. -/
theorem peek_full (hx : cf.msg.rmXid.toNat < 2 ^ 32) (h : c.room < 8) : ∃ c', c'.room ≤ c.room ∧
    cornflakePeekHeader (memStrm .encode c) cf = .ok (false, cf, memStrm .encode c') := by
  by_cases hr : 4 ≤ c.room
  · have hf : (c.write (toBytes (cf.msg.rmXid.setWidth 32))).room < 4 := by
      rw [Cursor.room_write, length_toBytes]
      omega
    refine ⟨c.write (toBytes (cf.msg.rmXid.setWidth 32)), by rw [Cursor.room_write]; omega, ?_⟩
    simp only [cornflakePeekHeader, uLong_encode hx hr, onField_ok, andThen_true, enum_full _ hf]
    rfl
  · refine ⟨c, le_refl _, ?_⟩
    simp only [cornflakePeekHeader, uLong_refused (fun hu => hr hu.2), onField_ok, andThen_false]
    rfl

theorem carriesHeader_fits (hd : cf.msg.rmDirection = MsgType.reply) (hx : cf.msg.rmXid.toNat < 2 ^ 32) :
    CarriesHeader R c cf := by
  intro cf' X hs
  by_cases hr : 8 ≤ c.room
  · have hp := peek_puts hx c hr
    rw [serialize_reply_body hd hp, hd] at hs
    rcases hm : flexxdrReplymsg (memStrm .encode
        (c.write (words [cf.msg.rmXid.setWidth 32, MsgType.reply]))) cf.msg with f | ⟨ok, m, X'⟩
    · rw [hm] at hs
      cases hs
    · rw [hm] at hs
      cases hs
      refine ⟨hr, _, m, (setWidth_fits _).mpr hx, hm, rfl, fun ha => ?_⟩
      obtain ⟨c', body, rfl, hb⟩ := replymsg_appends hd ha _ true m _ hm
      exact ⟨body, c', rfl, by rw [hb, Cursor.before_write, List.append_assoc]⟩
  · -- The body needs as much room as the header.
    obtain ⟨c', hc, hp⟩ := peek_full hx (show c.room < 8 by omega)
    have hb : Returns (flexxdrReplymsg (memStrm .encode c') cf.msg) true := by
      rw [← returns_onField _ cf.setMsg, ← serialize_reply_body (R := R) hd hp]
      exact ⟨cf', X, hs⟩
    exact absurd ((replymsg_encodes_iff hd).mp hb).room (by omega)

theorem carriesHeader_truncated (hd : cf.msg.rmDirection = MsgType.reply) (hx : ¬ cf.msg.rmXid.toNat < 2 ^ 32) :
    CarriesHeader R c cf ↔ ¬ ReplyFits c cf.msg := by
  have hs : Returns (cornflakeSerialize R (memStrm .encode c) cf) true ↔ ReplyFits c cf.msg := by
    rw [serialize_reply_body hd (peek_refused hx), returns_onField, replymsg_encodes_iff hd]
  constructor
  · intro hc hf
    obtain ⟨cf', X, hr⟩ := hs.mpr hf
    obtain ⟨-, w, -, hw, -⟩ := hc cf' X hr
    apply hx
    rw [← hw, BitVec.toNat_setWidth]
    exact lt_of_le_of_lt (Nat.mod_le _ _) w.isLt
  · intro hf cf' X hr
    exact absurd (hs.mp ⟨cf', X, hr⟩) hf

/-- **A reply reported as sent carries its header if and only if its transaction id fits in a word or its body fails
where the header should be.** -/
theorem carriesHeader_iff (R : Registry FlexxdrMem α) (c : MemCursor) (cf : Cflake FlexxdrMem α)
    (hd : cf.msg.rmDirection = MsgType.reply) :
    CarriesHeader R c cf ↔ cf.msg.rmXid.toNat < 2 ^ 32 ∨ ¬ ReplyFits c cf.msg := by
  by_cases hx : cf.msg.rmXid.toNat < 2 ^ 32
  · exact iff_of_true (carriesHeader_fits hd hx) (Or.inl hx)
  · rw [carriesHeader_truncated hd hx]
    exact ⟨Or.inr, fun h => h.resolve_left hx⟩

end Header

/-- An accepted reply without results, with a transaction id. -/
def systemError (xid : ULong) : Cflake FlexxdrMem Unit := ⟨⟨xid, MsgType.reply, 0, ⟨5, .word 0, .word 0⟩⟩, ()⟩

theorem carriesHeader_iff_systemError :
    CarriesHeader Registry.empty (.ofBuffer (List.replicate 16 0) (by decide)) (systemError 7) ↔
      (systemError 7).msg.rmXid.toNat < 2 ^ 32 ∨
        ¬ ReplyFits (.ofBuffer (List.replicate 16 0) (by decide)) (systemError 7).msg :=
  carriesHeader_iff Registry.empty _ (systemError 7) rfl

/-- With the transaction id `2 ^ 32` two words are sent, the statuses. -/
theorem header_left_out : ¬ CarriesHeader (Registry.empty : Registry FlexxdrMem Unit)
    (.ofBuffer (List.replicate 16 0) (by decide)) (systemError 0x100000000) := by
  rw [carriesHeader_truncated rfl (by decide), not_not]
  exact Or.inl ⟨rfl, Or.inr (Or.inr ⟨by decide, by decide, by decide⟩)⟩

end Cornflakes

import Cornflakes.Flexrpc.Prot

/-!
# Replies

- The specifications of the arms of a reply, for encoding and for decoding; a rejection for a reason other than the RPC
  version goes neither way (`rejected_refuses`, `rejected_decode`);
- `replymsg_raises`: a reply never calls a schema of the registry;
- for a record that no result procedure was stored in (`ReplyBody.NoProc`): decoding a reply stores none
  (`replymsg_noProc`), it calls through the place all the same exactly when the two status words ask for results
  (`replymsg_wild_iff`), and it refuses exactly the byte strings `RefusedReply` (`replymsg_refuses_iff`).
-/

set_option autoImplicit false

namespace Cornflakes.Flexrpc

open Wire

variable {σ α : Type}

/-! ## The arms on memory streams -/

section Arms

theorem choice_accepted : flexxdrChoice ReplyStat.msgAccepted (replyDscrm : List (FlexxdrDiscrim σ (ReplyBody σ α))) =
    .ok (some flexxdrAcceptedReply) := rfl

theorem choice_denied : flexxdrChoice ReplyStat.msgDenied (replyDscrm : List (FlexxdrDiscrim σ (ReplyBody σ α))) =
    .ok (some flexxdrRejectedReply) := rfl

theorem acceptedArm_success {ar : ReplyBody σ α} (h : ar.stat = AcceptStat.success) :
    (fun X => acceptedArm X ar) = fun X => flexxdrResults X ar := funext fun _ => if_pos h

theorem acceptedArm_mismatch {ar : ReplyBody σ α} (h : ar.stat = AcceptStat.progMismatch) :
    (fun X => acceptedArm X ar) = fun X => flexxdrVersions X ar := by
  funext X
  have hs : ar.stat ≠ AcceptStat.success := by rw [h]; decide
  exact (if_neg hs).trans (if_pos h)

theorem acceptedArm_other {ar : ReplyBody σ α} (hs : ar.stat ≠ AcceptStat.success)
    (hm : ar.stat ≠ AcceptStat.progMismatch) : (fun X => acceptedArm X ar) = fun X => .ok (true, ar, X) :=
  funext fun _ => (if_neg hs).trans (if_neg hm)

theorem rejectedArm_mismatch {rr : ReplyBody σ α} (h : rr.stat = RejectStat.rpcMismatch) :
    (fun X => rejectedArm X rr) = fun X => flexxdrVersions X rr := funext fun _ => if_pos h

theorem rejectedArm_other {rr : ReplyBody σ α} (h : rr.stat ≠ RejectStat.rpcMismatch) :
    (fun X => rejectedArm X rr) = fun X => .ok (false, rr, X) := funext fun _ => if_neg h

variable {ar ar' : ReplyBody FlexxdrMem α} {bs : List Byte}

theorem nothing_puts : Puts (memStrm .encode) (fun X => (.ok (true, ar, X) : Except Fault _)) ar [] := by
  intro c _
  rw [Cursor.write_nil]

theorem nothing_takes : Takes (memStrm .decode) (fun X => (.ok (true, ar, X) : Except Fault _)) ar [] := by
  intro c r _
  rw [List.length_nil, Cursor.advance_zero]

theorem versions_puts (hl : ar.versLow.toNat < 2 ^ 32) (hh : ar.versHigh.toNat < 2 ^ 32) :
    Puts (memStrm .encode) (fun X => flexxdrVersions X ar) ar
      (words [ar.versLow.setWidth 32, ar.versHigh.setWidth 32]) :=
  Puts.field (uLong_puts hl) ar.setVersLow_versLow <| Puts.last (uLong_puts hh) ar.setVersHigh_versHigh

theorem versions_takes (ar : ReplyBody FlexxdrMem α) (low high : Word) :
    Takes (memStrm .decode) (fun X => flexxdrVersions X ar)
      ((ar.setVersLow (low.setWidth 64)).setVersHigh (high.setWidth 64)) (words [low, high]) :=
  Takes.field (uLong_takes _ low) <| Takes.last (uLong_takes _ high)

theorem results_eq {X : Flexxdr σ} {ar : ReplyBody σ α} {p : FlexxdrProc σ α} {addr : ULong} {a : α}
    (hh : ar.high = .proc p) (hl : ar.low = .ptr addr a) :
    flexxdrResults X ar = onField (callProc (some p) X a) fun a => { ar with low := .ptr addr a } := by
  have hc : callProc (some p.onSlot) X (.ptr addr a) = onField (callProc (some p) X a) (.ptr addr ·) := by
    rw [callProc_some, callProc_some, onSlot_ptr, mapError_onField]
  unfold flexxdrResults
  rw [hh]
  simp only [hl, hc, onField_onField]

theorem results_puts {p : FlexxdrProc FlexxdrMem α} {addr : ULong} {a a' : α} (hh : ar.high = .proc p)
    (hl : ar.low = .ptr addr a) (hp : Puts (memStrm .encode) (fun X => p.code X a) a' bs) :
    Puts (memStrm .encode) (fun X => flexxdrResults X ar) { ar with low := .ptr addr a' } bs := by
  intro c hc
  exact (results_eq hh hl).trans (by rw [callProc_ok (hp c hc), onField_ok])

theorem results_takes {p : FlexxdrProc FlexxdrMem α} {addr : ULong} {a a' : α} (hh : ar.high = .proc p)
    (hl : ar.low = .ptr addr a) (hp : Takes (memStrm .decode) (fun X => p.code X a) a' bs) :
    Takes (memStrm .decode) (fun X => flexxdrResults X ar) { ar with low := .ptr addr a' } bs := by
  intro c r h
  exact (results_eq hh hl).trans (by rw [callProc_ok (hp c r h), onField_ok])

theorem accepted_puts (h : Puts (memStrm .encode) (fun X => acceptedArm X ar) ar' bs) :
    Puts (memStrm .encode) (fun X => flexxdrAcceptedReply X ar) ar' (toBytes ar.stat ++ bs) :=
  Puts.field (enum_puts _) ar.setStat_stat h

theorem accepted_takes {w : Word} (h : Takes (memStrm .decode) (fun X => acceptedArm X (ar.setStat w)) ar' bs) :
    Takes (memStrm .decode) (fun X => flexxdrAcceptedReply X ar) ar' (toBytes w ++ bs) :=
  Takes.field (enum_takes _ w) h

theorem rejected_puts (h : Puts (memStrm .encode) (fun X => rejectedArm X ar) ar' bs) :
    Puts (memStrm .encode) (fun X => flexxdrRejectedReply X ar) ar' (toBytes ar.stat ++ bs) :=
  Puts.field (enum_puts _) ar.setStat_stat h

theorem rejected_takes {w : Word} (h : Takes (memStrm .decode) (fun X => rejectedArm X (ar.setStat w)) ar' bs) :
    Takes (memStrm .decode) (fun X => flexxdrRejectedReply X ar) ar' (toBytes w ++ bs) :=
  Takes.field (enum_takes _ w) h

/-- A rejection for another reason is not encoded. -/
theorem rejected_refuses (h : ar.stat ≠ RejectStat.rpcMismatch) :
    Refuses (memStrm .encode) (fun X => flexxdrRejectedReply X ar) ar := by
  refine Refuses.rest (enum_puts _) (enum_puts_short _) ar.setStat_stat ?_
  intro c
  exact ⟨c, congrFun (rejectedArm_other h) _⟩

/-- Nor is it decoded. -/
theorem rejected_decode {c : MemCursor} {w : Word} {r : List Byte} (hw : w ≠ RejectStat.rpcMismatch)
    (h : c.ahead = toBytes w ++ r) :
    flexxdrRejectedReply (memStrm .decode c) ar = .ok (false, ar.setStat w, memStrm .decode (c.advance 4)) := by
  have hs : (ar.setStat w).stat ≠ RejectStat.rpcMismatch := by rw [ReplyBody.stat_setStat]; exact hw
  rw [flexxdrRejectedReply, enum_decode _ h, onField_ok, andThen_true]
  exact congrFun (rejectedArm_other hs) _

theorem replymsg_reply {m : RpcMsg σ α} (h : m.rmDirection = MsgType.reply) : (fun X => flexxdrReplymsg X m) =
    fun X => onField (flexxdrUnion X m.rpStat m.body replyDscrm none) fun (stat, ru) => (m.setRpStat stat).setBody ru :=
  funext fun _ => if_pos h

variable {m : RpcMsg FlexxdrMem α} {st : Word}

theorem replymsg_puts (hd : m.rmDirection = MsgType.reply)
    (h : Puts (memStrm .encode) (fun X => flexxdrUnion X m.rpStat m.body replyDscrm none) (st, ar) bs) :
    Puts (memStrm .encode) (fun X => flexxdrReplymsg X m) ((m.setRpStat st).setBody ar) bs := by
  rw [replymsg_reply hd]
  exact Puts.last h rfl

theorem replymsg_takes (hd : m.rmDirection = MsgType.reply)
    (h : Takes (memStrm .decode) (fun X => flexxdrUnion X m.rpStat m.body replyDscrm none) (st, ar) bs) :
    Takes (memStrm .decode) (fun X => flexxdrReplymsg X m) ((m.setRpStat st).setBody ar) bs := by
  rw [replymsg_reply hd]
  exact Takes.last h

end Arms

/-! ## Faults of a reply -/

theorem ofStream_ne_absent {f : Fault} (h : f.OfStream) : f ≠ .absentSchema := by
  rcases h with rfl | ⟨g, rfl⟩ <;> simp

theorem ofStream_ne_wild {f : Fault} (h : f.OfStream) : f ≠ .wildProc := by
  rcases h with rfl | ⟨g, rfl⟩ <;> simp

theorem versions_raises (X : Flexxdr σ) (ar : ReplyBody σ α) : Raises Fault.OfStream (flexxdrVersions X ar) :=
  ((uLong_raises X _).onField _).andThen fun X _ => (uLong_raises X _).onField _

theorem results_raises (X : Flexxdr σ) (ar : ReplyBody σ α) : Raises (· ≠ .absentSchema) (flexxdrResults X ar) := by
  unfold flexxdrResults
  split
  · exact ((callProc_raises _ X _).weaken fun _ => ofStream_ne_absent).onField _
  · exact Raises.error (by simp)

theorem accepted_raises (X : Flexxdr σ) (ar : ReplyBody σ α) :
    Raises (· ≠ .absentSchema) (flexxdrAcceptedReply X ar) := by
  refine (((enum_raises X _).weaken fun _ => ofStream_ne_absent).onField _).andThen fun X ar => ?_
  unfold acceptedArm
  split
  · exact results_raises X ar
  · split
    · exact (versions_raises X ar).weaken fun _ => ofStream_ne_absent
    · exact Raises.ok _

theorem rejected_raises (X : Flexxdr σ) (rr : ReplyBody σ α) : Raises Fault.OfStream (flexxdrRejectedReply X rr) := by
  refine ((enum_raises X _).onField _).andThen fun X rr => ?_
  unfold rejectedArm
  split
  · exact versions_raises X rr
  · exact Raises.ok _

/-- The table of replies after the reply status. -/
theorem replyUnion_arm {X X' : Flexxdr σ} {st w : Word} {ar : ReplyBody σ α} (he : flexxdrEnum X st = .ok (true, w, X')) :
    flexxdrUnion X st ar replyDscrm none =
      if w = ReplyStat.msgAccepted then onField (flexxdrAcceptedReply X' ar) (w, ·)
      else if w = ReplyStat.msgDenied then onField (flexxdrRejectedReply X' ar) (w, ·)
      else .ok (false, (w, ar), X') := by
  unfold flexxdrUnion
  rw [he, ok_bind]
  simp only [replyDscrm, flexxdrChoice, Bool.not_true, Bool.false_eq_true, if_false]
  by_cases ha : w = ReplyStat.msgAccepted
  · subst ha
    rfl
  · by_cases hd : w = ReplyStat.msgDenied
    · subst hd
      rfl
    · rw [if_neg (fun e => ha e.symm), if_neg (fun e => hd e.symm), if_neg ha, if_neg hd]
      rfl

/-- The three ways that the union of a reply goes at the reply status. -/
theorem replyUnion_cases (X : Flexxdr σ) (st : Word) (ar : ReplyBody σ α) :
    (∃ f, f.OfStream ∧ flexxdrEnum X st = .error f ∧ flexxdrUnion X st ar replyDscrm none = .error f) ∨
    (∃ w X', flexxdrEnum X st = .ok (false, w, X') ∧
      flexxdrUnion X st ar replyDscrm none = .ok (false, (w, ar), X')) ∨
    ∃ w X', flexxdrEnum X st = .ok (true, w, X') := by
  unfold flexxdrUnion
  rcases he : flexxdrEnum X st with f | ⟨ok, w, X'⟩
  · exact Or.inl ⟨f, enum_raises X st f he, rfl, rfl⟩
  · cases ok with
    | false => exact Or.inr (Or.inl ⟨w, X', rfl, rfl⟩)
    | true => exact Or.inr (Or.inr ⟨w, X', rfl⟩)

/-- A reply never calls a schema of the registry. -/
theorem replymsg_raises (X : Flexxdr σ) (m : RpcMsg σ α) : Raises (· ≠ .absentSchema) (flexxdrReplymsg X m) := by
  by_cases hd : m.rmDirection = MsgType.reply
  · rw [congrFun (replymsg_reply hd) X]
    refine Raises.onField ?_ _
    rcases replyUnion_cases X m.rpStat m.body with ⟨f, hf, -, hu⟩ | ⟨w, X', -, hu⟩ | ⟨w, X', he⟩
    · rw [hu]
      exact Raises.error (ofStream_ne_absent hf)
    · rw [hu]
      exact Raises.ok _
    · rw [replyUnion_arm he]
      split
      · exact (accepted_raises X' _).onField _
      · split
        · exact ((rejected_raises X' _).weaken fun _ => ofStream_ne_absent).onField _
        · exact Raises.ok _
  · rw [flexxdrReplymsg, if_neg hd]
    exact Raises.ok _

/-! ## A record that no procedure was stored in -/

/-- The place of `ar_results.proc` holds an integer: zeros, or the procedure number of an earlier call. -/
def ReplyBody.NoProc (ar : ReplyBody σ α) : Prop := ar.high.IsWord

/-- The next two words are the statuses of a reply with results. -/
def AsksForResults (X : Flexxdr σ) (m : RpcMsg σ α) : Prop :=
  ∃ X₁ X₂, flexxdrEnum X m.rpStat = .ok (true, ReplyStat.msgAccepted, X₁) ∧
    flexxdrEnum X₁ m.body.stat = .ok (true, AcceptStat.success, X₂)

theorem results_noProc {X : Flexxdr σ} {ar : ReplyBody σ α} (h : ar.NoProc) :
    flexxdrResults X ar = .error .wildProc := by
  obtain ⟨w, hw⟩ := h
  unfold flexxdrResults
  rw [hw]

theorem versions_noProc {X : Flexxdr σ} {ar : ReplyBody σ α} (h : ar.NoProc) :
    Leaves ReplyBody.NoProc (flexxdrVersions X ar) := by
  have hl (v : ULong) : (ar.setVersLow v).NoProc := h
  refine Leaves.andThen (Leaves.onField (Leaves.any _) fun v _ => hl v) fun X ar har => ?_
  exact Leaves.onField (Leaves.any _) fun v _ => Slot.IsWord.store har v

theorem accepted_noProc {X : Flexxdr σ} {ar : ReplyBody σ α} (h : ar.NoProc) :
    Leaves ReplyBody.NoProc (flexxdrAcceptedReply X ar) := by
  have hs (w : Word) : (ar.setStat w).NoProc := h
  refine Leaves.andThen (Leaves.onField (Leaves.any _) fun w _ => hs w) fun X ar har => ?_
  unfold acceptedArm
  split
  · rw [results_noProc har]
    exact Leaves.error _
  · split
    · exact versions_noProc har
    · exact Leaves.ok har

theorem rejected_noProc {X : Flexxdr σ} {rr : ReplyBody σ α} (h : rr.NoProc) :
    Leaves ReplyBody.NoProc (flexxdrRejectedReply X rr) := by
  have hs (w : Word) : (rr.setStat w).NoProc := h
  refine Leaves.andThen (Leaves.onField (Leaves.any _) fun w _ => hs w) fun X rr hrr => ?_
  unfold rejectedArm
  split
  · exact versions_noProc hrr
  · exact Leaves.ok hrr

/-- Decoding a reply stores no procedure. -/
theorem replymsg_noProc {X : Flexxdr σ} {m : RpcMsg σ α} (h : m.body.NoProc) :
    Leaves (fun m => m.body.NoProc) (flexxdrReplymsg X m) := by
  by_cases hd : m.rmDirection = MsgType.reply
  · have hu : Leaves (fun u : Word × ReplyBody σ α => u.2.NoProc) (flexxdrUnion X m.rpStat m.body replyDscrm none) := by
      rcases replyUnion_cases X m.rpStat m.body with ⟨f, -, -, hu⟩ | ⟨w, X', -, hu⟩ | ⟨w, X', he⟩
      · rw [hu]
        exact Leaves.error f
      · rw [hu]
        exact Leaves.ok h
      · rw [replyUnion_arm he]
        split
        · exact Leaves.onField (accepted_noProc h) fun _ ha => ha
        · split
          · exact Leaves.onField (rejected_noProc h) fun _ ha => ha
          · exact Leaves.ok h
    rw [congrFun (replymsg_reply hd) X]
    exact Leaves.onField hu fun _ hr => hr
  · rw [flexxdrReplymsg, if_neg hd]
    exact Leaves.ok h

theorem accepted_wild_iff {X : Flexxdr σ} {ar : ReplyBody σ α} (h : ar.NoProc) :
    flexxdrAcceptedReply X ar = .error .wildProc ↔
      ∃ X', flexxdrEnum X ar.stat = .ok (true, AcceptStat.success, X') := by
  unfold flexxdrAcceptedReply
  rcases he : flexxdrEnum X ar.stat with f | ⟨ok, w, X'⟩
  · have hf := enum_raises X ar.stat f he
    refine iff_of_false ?_ (by rintro ⟨X', he⟩; cases he)
    intro hw
    cases hw
    exact ofStream_ne_wild hf rfl
  · cases ok with
    | false =>
      refine iff_of_false (fun hw => by cases hw) ?_
      rintro ⟨X'', he⟩
      cases he
    | true =>
      have hs : (ar.setStat w).stat = w := ReplyBody.stat_setStat _ _
      have hn : (ar.setStat w).NoProc := h
      rw [onField_ok, andThen_true]
      unfold acceptedArm
      rw [hs]
      by_cases hw : w = AcceptStat.success
      · subst hw
        exact iff_of_true (by rw [if_pos rfl, results_noProc hn]) ⟨X', rfl⟩
      · refine iff_of_false ?_ ?_
        · rw [if_neg hw]
          split
          · exact fun hv => ofStream_ne_wild (versions_raises X' _ _ hv) rfl
          · exact fun hv => by cases hv
        · rintro ⟨X'', he⟩
          cases he
          exact hw rfl

/-- The results of a reply that asks for them end in a fault. -/
theorem replymsg_asks {X X₁ X₂ : Flexxdr σ} {m : RpcMsg σ α} {f : Fault} (hd : m.rmDirection = MsgType.reply)
    (h₁ : flexxdrEnum X m.rpStat = .ok (true, ReplyStat.msgAccepted, X₁))
    (h₂ : flexxdrEnum X₁ m.body.stat = .ok (true, AcceptStat.success, X₂))
    (hf : flexxdrResults X₂ (m.body.setStat AcceptStat.success) = .error f) : flexxdrReplymsg X m = .error f := by
  have hstat : (m.body.setStat AcceptStat.success).stat = AcceptStat.success := ReplyBody.stat_setStat _ _
  have hacc : flexxdrAcceptedReply X₁ m.body = .error f := by
    rw [flexxdrAcceptedReply, h₂, onField_ok, andThen_true]
    exact (congrFun (acceptedArm_success hstat) X₂).trans hf
  rw [congrFun (replymsg_reply hd) X, replyUnion_arm h₁, if_pos rfl, hacc]
  rfl

/-- **A record without a result procedure calls one exactly when the two status words ask for results.** -/
theorem replymsg_wild_iff {X : Flexxdr σ} {m : RpcMsg σ α} (hd : m.rmDirection = MsgType.reply) (h : m.body.NoProc) :
    flexxdrReplymsg X m = .error .wildProc ↔ AsksForResults X m := by
  rw [congrFun (replymsg_reply hd) X, onField_error_iff]
  rcases replyUnion_cases X m.rpStat m.body with ⟨f, hf, he, hu⟩ | ⟨w, X', he, hu⟩ | ⟨w, X', he⟩
  · rw [hu]
    refine iff_of_false (fun hw => ?_) ?_
    · cases hw
      exact ofStream_ne_wild hf rfl
    · rintro ⟨X₁, X₂, he', -⟩
      rw [he] at he'
      cases he'
  · rw [hu]
    refine iff_of_false (fun hw => by cases hw) ?_
    rintro ⟨X₁, X₂, he', -⟩
    rw [he] at he'
    cases he'
  · rw [replyUnion_arm he]
    by_cases ha : w = ReplyStat.msgAccepted
    · subst ha
      rw [if_pos rfl, onField_error_iff, accepted_wild_iff h]
      constructor
      · rintro ⟨X₂, he₂⟩
        exact ⟨X', X₂, he, he₂⟩
      · rintro ⟨X₁, X₂, he', he₂⟩
        rw [he] at he'
        cases he'
        exact ⟨X₂, he₂⟩
    · refine iff_of_false ?_ ?_
      · rw [if_neg ha]
        split
        · rw [onField_error_iff]
          exact fun hr => ofStream_ne_wild (rejected_raises X' _ _ hr) rfl
        · exact fun hr => by cases hr
      · rintro ⟨X₁, X₂, he', -⟩
        rw [he] at he'
        cases he'
        exact ha rfl

/-! ## What such a record refuses -/

/-- With two status words ahead, an accepted reply stops in the bounds of PROG_MISMATCH, and a rejected one for
RPC_MISMATCH in its bounds. -/
def RefusedReply (bs : List Byte) : Prop :=
  ∀ st s r, bs = words [st, s] ++ r →
    (st = ReplyStat.msgAccepted → s = AcceptStat.progMismatch ∧ r.length < 8) ∧
    (st = ReplyStat.msgDenied → s = RejectStat.rpcMismatch → r.length < 8)

section Refused

variable {c : MemCursor} {ar : ReplyBody FlexxdrMem α}

theorem versions_returns (b : Bool) : Returns (flexxdrVersions (memStrm .decode c) ar) b ↔ b = decide (8 ≤ c.room) := by
  rcases two_words_cases c.ahead with hs | ⟨low, high, r, h⟩
  · have hb : decide (8 ≤ c.room) = false := decide_eq_false (by unfold Cursor.room; omega)
    rw [hb]
    obtain h0 | ⟨low, r, h0⟩ := word_cases c.ahead
    · rw [flexxdrVersions, uLong_short _ h0, onField_ok, andThen_false, returns_ok]
      exact eq_comm
    · have h1 : (c.advance 4).room < 4 := by
        rw [Cursor.room_advance]
        unfold Cursor.room
        omega
      rw [flexxdrVersions, uLong_decode _ h0, onField_ok, andThen_true, uLong_short _ h1, onField_ok, returns_ok]
      exact eq_comm
  · have hb : decide (8 ≤ c.room) = true := by
      apply decide_eq_true
      unfold Cursor.room
      rw [h, List.length_append, length_words]
      simp only [List.length_cons, List.length_nil]
      omega
    have hv := versions_takes ar low high c r h
    simp only at hv
    rw [hb, hv, returns_ok]
    exact eq_comm

/-- Without a second status word everything is refused. -/
theorem replyUnion_short (d : Word) (h : c.room < 8) :
    Returns (flexxdrUnion (memStrm .decode c) d ar replyDscrm none) false := by
  obtain h0 | ⟨st, r, h0⟩ := word_cases c.ahead
  · rw [union_full (enum_short d h0), returns_ok]
  · have h1 : (c.advance 4).room < 4 := by rw [Cursor.room_advance]; omega
    rw [replyUnion_arm (enum_decode d h0)]
    split
    · rw [returns_onField, flexxdrAcceptedReply, enum_short _ h1, onField_ok, andThen_false, returns_ok]
    · split
      · rw [returns_onField, flexxdrRejectedReply, enum_short _ h1, onField_ok, andThen_false, returns_ok]
      · rw [returns_ok]

theorem accepted_refuses_iff {s : Word} {r : List Byte} (hn : ar.NoProc) (h : c.ahead = toBytes s ++ r) :
    Returns (flexxdrAcceptedReply (memStrm .decode c) ar) false ↔ s = AcceptStat.progMismatch ∧ r.length < 8 := by
  have hs : (ar.setStat s).stat = s := ReplyBody.stat_setStat _ _
  have hr : (c.advance 4).room = r.length := by
    unfold Cursor.room
    rw [Cursor.ahead_advance, h, drop_toBytes]
  rw [flexxdrAcceptedReply, enum_decode _ h, onField_ok, andThen_true]
  unfold acceptedArm
  rw [hs]
  by_cases h0 : s = AcceptStat.success
  · have hw : flexxdrResults (memStrm .decode (c.advance 4)) (ar.setStat s) = .error .wildProc := results_noProc hn
    rw [if_pos h0, hw]
    refine iff_of_false (not_returns_error _ _) ?_
    rintro ⟨h2, -⟩
    rw [h0] at h2
    cases h2
  · rw [if_neg h0]
    by_cases h2 : s = AcceptStat.progMismatch
    · rw [if_pos h2, versions_returns, hr]
      simp [h2]
    · rw [if_neg h2, returns_ok]
      simp [h2]

theorem rejected_refuses_iff {s : Word} {r : List Byte} (h : c.ahead = toBytes s ++ r) :
    Returns (flexxdrRejectedReply (memStrm .decode c) ar) false ↔ (s = RejectStat.rpcMismatch → r.length < 8) := by
  have hs : (ar.setStat s).stat = s := ReplyBody.stat_setStat _ _
  have hr : (c.advance 4).room = r.length := by
    unfold Cursor.room
    rw [Cursor.ahead_advance, h, drop_toBytes]
  rw [flexxdrRejectedReply, enum_decode _ h, onField_ok, andThen_true]
  unfold rejectedArm
  rw [hs]
  by_cases h0 : s = RejectStat.rpcMismatch
  · rw [if_pos h0, versions_returns, hr]
    simp [h0]
  · rw [if_neg h0, returns_ok]
    simp [h0]

/-- **A record without a result procedure refuses exactly these replies.** -/
theorem replymsg_refuses_iff {m : RpcMsg FlexxdrMem α} (hd : m.rmDirection = MsgType.reply) (hn : m.body.NoProc) :
    Returns (flexxdrReplymsg (memStrm .decode c) m) false ↔ RefusedReply c.ahead := by
  rw [congrFun (replymsg_reply hd) _, returns_onField]
  rcases two_words_cases c.ahead with hs | ⟨st, s, r, h⟩
  · refine iff_of_true (replyUnion_short _ hs) ?_
    intro st s r h
    rw [h, List.length_append, length_words] at hs
    simp only [List.length_cons, List.length_nil] at hs
    omega
  · have hf : RefusedReply c.ahead ↔ (st = ReplyStat.msgAccepted → s = AcceptStat.progMismatch ∧ r.length < 8) ∧
        (st = ReplyStat.msgDenied → s = RejectStat.rpcMismatch → r.length < 8) := by
      constructor
      · intro hr
        exact hr st s r h
      · intro hr st' s' r' h'
        obtain ⟨rfl, rfl, rfl⟩ := two_words_inj (h.symm.trans h')
        exact hr
    have h0 : c.ahead = toBytes st ++ (toBytes s ++ r) := h
    have h1 : (c.advance 4).ahead = toBytes s ++ r := by rw [Cursor.ahead_advance, h0, drop_toBytes]
    rw [hf, replyUnion_arm (enum_decode m.rpStat h0)]
    by_cases ha : st = ReplyStat.msgAccepted
    · subst ha
      rw [if_pos rfl, returns_onField, accepted_refuses_iff hn h1]
      exact ⟨fun hr => ⟨fun _ => hr, fun hd => by cases hd⟩, fun hr => hr.1 rfl⟩
    · rw [if_neg ha]
      by_cases hj : st = ReplyStat.msgDenied
      · rw [if_pos hj, returns_onField, rejected_refuses_iff h1]
        exact ⟨fun hr => ⟨fun hd => absurd hd ha, fun _ => hr⟩, fun hr => hr.2 hj⟩
      · rw [if_neg hj, returns_ok]
        exact iff_of_true rfl ⟨fun h => absurd h ha, fun h => absurd h hj⟩

end Refused

end Cornflakes.Flexrpc

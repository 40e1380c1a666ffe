import Cornflakes.Flexrpc.Reply

/-!
# The grammar of replies

A record whose `ar_results` have been prepared decodes a reply with TRUE exactly from the byte strings `ReplyGrammar`,
and what it then holds is determined by them (`TakesReply`, `replymsg_true_iff`). Decoding loses nothing: when the result
procedure encodes what it has decoded as the bytes that it came from, so does `flexxdr_replymsg` (`replymsg_recodes`).
-/

set_option autoImplicit false

namespace Cornflakes.Flexrpc

open Wire

variable {α : Type} {c : MemCursor} {ar out : ReplyBody FlexxdrMem α} {p : FlexxdrProc FlexxdrMem α} {addr : ULong}
  {a : α} {st s : Word} {r : List Byte}

/-- The storage of a reply with a status and the bounds of a mismatch. -/
def ReplyBody.mismatch (ar : ReplyBody FlexxdrMem α) (s low high : Word) : ReplyBody FlexxdrMem α :=
  ((ar.setStat s).setVersLow (low.setWidth 64)).setVersHigh (high.setWidth 64)

/-- What is decoded with TRUE at `c` into the storage `ar`, where the results go to `a` through `p`: the reply status,
the storage afterwards, and the stream. -/
inductive TakesReply (c : MemCursor) (ar : ReplyBody FlexxdrMem α) (p : FlexxdrProc FlexxdrMem α) (addr : ULong) (a : α) :
    Word → ReplyBody FlexxdrMem α → Flexxdr FlexxdrMem → Prop
  | success {r : List Byte} {a' : α} {X : Flexxdr FlexxdrMem}
      (bytes : c.ahead = words [ReplyStat.msgAccepted, AcceptStat.success] ++ r)
      (results : p.code (memStrm .decode (c.advance 8)) a = .ok (true, a', X)) :
      TakesReply c ar p addr a ReplyStat.msgAccepted { ar.setStat AcceptStat.success with low := .ptr addr a' } X
  | progMismatch {low high : Word} {r : List Byte}
      (bytes : c.ahead = words [ReplyStat.msgAccepted, AcceptStat.progMismatch, low, high] ++ r) :
      TakesReply c ar p addr a ReplyStat.msgAccepted (ar.mismatch AcceptStat.progMismatch low high)
        (memStrm .decode (c.advance 16))
  | otherStat {s : Word} {r : List Byte} (bytes : c.ahead = words [ReplyStat.msgAccepted, s] ++ r)
      (success : s ≠ AcceptStat.success) (progMismatch : s ≠ AcceptStat.progMismatch) :
      TakesReply c ar p addr a ReplyStat.msgAccepted (ar.setStat s) (memStrm .decode (c.advance 8))
  | rpcMismatch {low high : Word} {r : List Byte}
      (bytes : c.ahead = words [ReplyStat.msgDenied, RejectStat.rpcMismatch, low, high] ++ r) :
      TakesReply c ar p addr a ReplyStat.msgDenied (ar.mismatch RejectStat.rpcMismatch low high)
        (memStrm .decode (c.advance 16))

/-- The bytes at `c` are a reply whose results, if it has any, are accepted. -/
def ReplyGrammar (accepts : MemCursor → Prop) (c : MemCursor) : Prop :=
  (∃ s r, c.ahead = words [ReplyStat.msgAccepted, s] ++ r ∧
    (s = AcceptStat.success ∧ accepts (c.advance 8) ∨
      s = AcceptStat.progMismatch ∧ (∃ low high r', r = words [low, high] ++ r') ∨
      s ≠ AcceptStat.success ∧ s ≠ AcceptStat.progMismatch)) ∨
  ∃ low high r, c.ahead = words [ReplyStat.msgDenied, RejectStat.rpcMismatch, low, high] ++ r

/-! ## Decoding -/

theorem words_pair (a s low high : Word) : words [a, s, low, high] = words [a, s] ++ words [low, high] := rfl

/-- With two status words ahead, the arms start behind them. -/
theorem replyUnion_words (d : Word) (h : c.ahead = words [st, s] ++ r) :
    flexxdrUnion (memStrm .decode c) d ar replyDscrm none =
      if st = ReplyStat.msgAccepted then onField (acceptedArm (memStrm .decode (c.advance 8)) (ar.setStat s)) (st, ·)
      else if st = ReplyStat.msgDenied then onField (rejectedArm (memStrm .decode (c.advance 8)) (ar.setStat s)) (st, ·)
      else .ok (false, (st, ar), memStrm .decode (c.advance 4)) := by
  have h0 : c.ahead = toBytes st ++ (toBytes s ++ r) := h
  have h1 : (c.advance 4).ahead = toBytes s ++ r := by rw [Cursor.ahead_advance, h0, drop_toBytes]
  rw [replyUnion_arm (enum_decode d h0), flexxdrAcceptedReply, flexxdrRejectedReply, enum_decode _ h1, onField_ok,
    andThen_true, andThen_true, c.advance_advance]

/-- The bounds of a mismatch are decoded where there are two words. -/
theorem versions_true_iff {X : Flexxdr FlexxdrMem} :
    flexxdrVersions (memStrm .decode c) ar = .ok (true, out, X) ↔
      ∃ low high r, c.ahead = words [low, high] ++ r ∧
        out = (ar.setVersLow (low.setWidth 64)).setVersHigh (high.setWidth 64) ∧ X = memStrm .decode (c.advance 8) := by
  constructor
  · intro h
    have hr := (versions_returns true).mp ⟨out, X, h⟩
    rcases two_words_cases c.ahead with hs | ⟨low, high, r, hc⟩
    · exact absurd (of_decide_eq_true hr.symm) (by unfold Cursor.room; omega)
    · have ht := versions_takes ar low high c r hc
      simp only [h] at ht
      cases ht
      exact ⟨low, high, r, hc, rfl, rfl⟩
  · rintro ⟨low, high, r, hc, rfl, rfl⟩
    exact versions_takes ar low high c r hc

theorem results_true_iff {X : Flexxdr FlexxdrMem} (hh : ar.high = .proc p) (hl : ar.low = .ptr addr a) :
    flexxdrResults (memStrm .decode c) ar = .ok (true, out, X) ↔
      ∃ a', p.code (memStrm .decode c) a = .ok (true, a', X) ∧ out = { ar with low := .ptr addr a' } := by
  rw [results_eq hh hl]
  constructor
  · intro h
    obtain ⟨a', hc, rfl⟩ := exists_of_onField h
    obtain ⟨p', hp, hr⟩ := exists_of_callProc hc
    cases hp
    exact ⟨a', hr, rfl⟩
  · rintro ⟨a', hr, rfl⟩
    rw [callProc_ok hr]
    rfl

/-- A union that is decoded with TRUE has its discriminant and what the arm leaves. -/
theorem onField_arm_iff {f : Except Fault (Outcome FlexxdrMem (ReplyBody FlexxdrMem α))} {st' : Word}
    {X : Flexxdr FlexxdrMem} :
    onField f (st, ·) = .ok (true, (st', out), X) ↔ st' = st ∧ f = .ok (true, out, X) := by
  constructor
  · intro h
    obtain ⟨v, hv, he⟩ := exists_of_onField h
    cases he
    exact ⟨rfl, hv⟩
  · rintro ⟨rfl, rfl⟩
    rfl

/-- The arms of an accepted reply. -/
theorem TakesReply.of_accepted {X : Flexxdr FlexxdrMem} (hc : c.ahead = words [ReplyStat.msgAccepted, s] ++ r)
    (hh : ar.high = .proc p) (hl : ar.low = .ptr addr a)
    (h : acceptedArm (memStrm .decode (c.advance 8)) (ar.setStat s) = .ok (true, out, X)) :
    TakesReply c ar p addr a ReplyStat.msgAccepted out X := by
  have hstat : (ar.setStat s).stat = s := ReplyBody.stat_setStat _ _
  have hh' : (ar.setStat s).high = .proc p := hh
  have hl' : (ar.setStat s).low = .ptr addr a := hl
  have h8 : (c.advance 8).ahead = r := by rw [Cursor.ahead_advance, hc]; rfl
  by_cases hs : s = AcceptStat.success
  · subst hs
    rw [congrFun (acceptedArm_success hstat) _] at h
    obtain ⟨a', hp, rfl⟩ := (results_true_iff hh' hl').mp h
    exact .success hc hp
  · by_cases hm : s = AcceptStat.progMismatch
    · subst hm
      rw [congrFun (acceptedArm_mismatch hstat) _] at h
      obtain ⟨low, high, r', hw, rfl, rfl⟩ := versions_true_iff.mp h
      rw [h8] at hw
      rw [c.advance_advance]
      exact .progMismatch (r := r') (by rw [hc, hw, ← List.append_assoc, ← words_append]; rfl)
    · rw [congrFun (acceptedArm_other (by rwa [hstat]) (by rwa [hstat])) _] at h
      cases h
      exact .otherStat hc hs hm

/-- The one arm of a denied reply. -/
theorem TakesReply.of_denied {X : Flexxdr FlexxdrMem} (hc : c.ahead = words [ReplyStat.msgDenied, s] ++ r)
    (h : rejectedArm (memStrm .decode (c.advance 8)) (ar.setStat s) = .ok (true, out, X)) :
    TakesReply c ar p addr a ReplyStat.msgDenied out X := by
  have hstat : (ar.setStat s).stat = s := ReplyBody.stat_setStat _ _
  have h8 : (c.advance 8).ahead = r := by rw [Cursor.ahead_advance, hc]; rfl
  by_cases hm : s = RejectStat.rpcMismatch
  · subst hm
    rw [congrFun (rejectedArm_mismatch hstat) _] at h
    obtain ⟨low, high, r', hw, rfl, rfl⟩ := versions_true_iff.mp h
    rw [h8] at hw
    rw [c.advance_advance]
    exact .rpcMismatch (r := r') (by rw [hc, hw, ← List.append_assoc, ← words_append]; rfl)
  · rw [congrFun (rejectedArm_other (by rwa [hstat])) _] at h
    cases h

/-- The union is decoded with TRUE in four ways. -/
theorem replyUnion_takes {X : Flexxdr FlexxdrMem} (d : Word) (hh : ar.high = .proc p) (hl : ar.low = .ptr addr a)
    (h : flexxdrUnion (memStrm .decode c) d ar replyDscrm none = .ok (true, (st, out), X)) :
    TakesReply c ar p addr a st out X := by
  rcases two_words_cases c.ahead with hs | ⟨st', s, r, hc⟩
  · exact absurd (replyUnion_short d hs) (not_returns_both ⟨_, _, h⟩)
  rw [replyUnion_words d hc] at h
  by_cases ha : st' = ReplyStat.msgAccepted
  · subst ha
    rw [if_pos rfl] at h
    obtain ⟨rfl, harm⟩ := onField_arm_iff.mp h
    exact .of_accepted hc hh hl harm
  · rw [if_neg ha] at h
    by_cases hd : st' = ReplyStat.msgDenied
    · subst hd
      rw [if_pos rfl] at h
      obtain ⟨rfl, harm⟩ := onField_arm_iff.mp h
      exact .of_denied hc harm
    · rw [if_neg hd] at h
      cases h

/-- Each of the four ways is decoded with TRUE. -/
theorem TakesReply.union {X : Flexxdr FlexxdrMem} (h : TakesReply c ar p addr a st out X) (d : Word)
    (hh : ar.high = .proc p) (hl : ar.low = .ptr addr a) :
    flexxdrUnion (memStrm .decode c) d ar replyDscrm none = .ok (true, (st, out), X) := by
  have hstat (s : Word) : (ar.setStat s).stat = s := ReplyBody.stat_setStat _ _
  have hh' : (ar.setStat AcceptStat.success).high = .proc p := hh
  cases h with
  | success bytes results =>
    rw [replyUnion_words d bytes, if_pos rfl, congrFun (acceptedArm_success (hstat _)) _, onField_arm_iff]
    exact ⟨rfl, (results_true_iff hh' hl).mpr ⟨_, results, rfl⟩⟩
  | @progMismatch low high r bytes =>
    rw [words_pair, List.append_assoc] at bytes
    have h8 : (c.advance 8).ahead = words [low, high] ++ r := by rw [Cursor.ahead_advance, bytes]; rfl
    rw [replyUnion_words d bytes, if_pos rfl, congrFun (acceptedArm_mismatch (hstat _)) _, onField_arm_iff]
    exact ⟨rfl, versions_true_iff.mpr ⟨low, high, r, h8, rfl, by rw [c.advance_advance]⟩⟩
  | otherStat bytes success progMismatch =>
    rw [replyUnion_words d bytes, if_pos rfl, congrFun (acceptedArm_other (by rwa [hstat]) (by rwa [hstat])) _]
    rfl
  | @rpcMismatch low high r bytes =>
    rw [words_pair, List.append_assoc] at bytes
    have h8 : (c.advance 8).ahead = words [low, high] ++ r := by rw [Cursor.ahead_advance, bytes]; rfl
    rw [replyUnion_words d bytes, if_neg (by decide), if_pos rfl, congrFun (rejectedArm_mismatch (hstat _)) _,
      onField_arm_iff]
    exact ⟨rfl, versions_true_iff.mpr ⟨low, high, r, h8, rfl, by rw [c.advance_advance]⟩⟩

/-- The four ways are the grammar. -/
theorem takesReply_iff : (∃ st out X, TakesReply c ar p addr a st out X) ↔
    ReplyGrammar (fun c => Returns (p.code (memStrm .decode c) a) true) c := by
  constructor
  · rintro ⟨st, out, X, h⟩
    cases h with
    | success bytes results => exact Or.inl ⟨_, _, bytes, Or.inl ⟨rfl, _, _, results⟩⟩
    | @progMismatch low high r bytes =>
      exact Or.inl ⟨_, words [low, high] ++ r, bytes, Or.inr (Or.inl ⟨rfl, low, high, r, rfl⟩)⟩
    | otherStat bytes success progMismatch => exact Or.inl ⟨_, _, bytes, Or.inr (Or.inr ⟨success, progMismatch⟩)⟩
    | rpcMismatch bytes => exact Or.inr ⟨_, _, _, bytes⟩
  · rintro (⟨s, r, hc, ⟨rfl, a', X, hp⟩ | ⟨rfl, low, high, r', rfl⟩ | ⟨hs, hm⟩⟩ | ⟨low, high, r, hc⟩)
    · exact ⟨_, _, _, .success hc hp⟩
    · exact ⟨_, _, _, .progMismatch (r := r') hc⟩
    · exact ⟨_, _, _, .otherStat hc hs hm⟩
    · exact ⟨_, _, _, .rpcMismatch hc⟩

/-! ## Encoding again -/

theorem toNat_setWidth_lt (w : Word) : (w.setWidth 64).toNat < 2 ^ 32 := by
  rw [BitVec.toNat_setWidth_of_le (by decide)]
  exact w.isLt

theorem mismatch_puts (ar : ReplyBody FlexxdrMem α) (s low high : Word) :
    Puts (memStrm .encode) (fun X => flexxdrVersions X (ar.mismatch s low high)) (ar.mismatch s low high)
      (words [low, high]) := by
  have hlow : (ar.mismatch s low high).versLow = low.setWidth 64 :=
    (ReplyBody.versLow_setVersHigh _ _).trans (ReplyBody.versLow_setVersLow _ _)
  have hhigh : (ar.mismatch s low high).versHigh = high.setWidth 64 := ReplyBody.versHigh_setVersHigh _ _
  have hp : Puts (memStrm .encode) _ (ar.mismatch s low high) _ :=
    versions_puts (by rw [hlow]; exact toNat_setWidth_lt low) (by rw [hhigh]; exact toNat_setWidth_lt high)
  rwa [hlow, hhigh, setWidth_setWidth low (by decide), setWidth_setWidth high (by decide)] at hp

/-- The bytes that are decoded begin with the status words, and the arm took the rest. -/
theorem take_words {ws : List Word} {n : Nat} (h : c.ahead = words ws ++ r) :
    c.ahead.take (4 * ws.length + n) = words ws ++ r.take n := by
  rw [h, ← length_words, List.take_length_add_append]

theorem take_all {ws : List Word} {n : Nat} (h : c.ahead = words ws ++ r) (hn : n = 4 * ws.length) :
    c.ahead.take n = words ws := by
  rw [hn, h, ← length_words, List.take_left]

theorem le_room {ws : List Word} (h : c.ahead = words ws ++ r) : c.room = 4 * ws.length + r.length := by
  rw [Cursor.room, h, List.length_append, length_words]

section Arms

variable {ar' : ReplyBody FlexxdrMem α} {bs : List Byte}

/-- An accepted reply is encoded as two status words and what its arm writes. -/
theorem replyUnion_accepted (hs : ar.stat = s) (h : Puts (memStrm .encode) (fun X => acceptedArm X ar) ar' bs) :
    Puts (memStrm .encode) (fun X => flexxdrUnion X ReplyStat.msgAccepted ar replyDscrm none)
      (ReplyStat.msgAccepted, ar') (words [ReplyStat.msgAccepted, s] ++ bs) := by
  subst hs
  exact union_puts choice_accepted (accepted_puts h)

theorem replyUnion_denied (hs : ar.stat = s) (h : Puts (memStrm .encode) (fun X => rejectedArm X ar) ar' bs) :
    Puts (memStrm .encode) (fun X => flexxdrUnion X ReplyStat.msgDenied ar replyDscrm none)
      (ReplyStat.msgDenied, ar') (words [ReplyStat.msgDenied, s] ++ bs) := by
  subst hs
  exact union_puts choice_denied (rejected_puts h)

end Arms

/-- What was decoded in one of the four ways is encoded in the same way, as the bytes that it was decoded from. -/
theorem TakesReply.puts {X : Flexxdr FlexxdrMem} (h : TakesReply c ar p addr a st out X) (hh : ar.high = .proc p)
    (hp : ∀ c, Recodes (memStrm .decode) (memStrm .encode) p.code a c) :
    ∃ n out', n ≤ c.room ∧ X = memStrm .decode (c.advance n) ∧
      Puts (memStrm .encode) (fun X => flexxdrUnion X st out replyDscrm none) (st, out') (c.ahead.take n) := by
  have hstat (s : Word) : (ar.setStat s).stat = s := ReplyBody.stat_setStat _ _
  have hmis (s low high : Word) : (ar.mismatch s low high).stat = s := hstat s
  cases h with
  | @success r a' X bytes results =>
    obtain ⟨n, a'', hn, rfl, hr⟩ := hp (c.advance 8) a' X results
    have h8 : (c.advance 8).ahead = r := by rw [Cursor.ahead_advance, bytes]; rfl
    have hroom : c.room = 8 + r.length := le_room bytes
    rw [Cursor.room, h8] at hn
    rw [h8] at hr
    refine ⟨8 + n, { ar.setStat AcceptStat.success with low := .ptr addr a'' }, by omega,
      by rw [c.advance_advance], ?_⟩
    have ht : c.ahead.take (8 + n) = _ := take_words bytes
    have hs : ({ ar.setStat AcceptStat.success with low := .ptr addr a' } : ReplyBody FlexxdrMem α).stat =
      AcceptStat.success := hstat _
    rw [ht]
    refine replyUnion_accepted hs ?_
    rw [acceptedArm_success hs]
    exact results_puts hh rfl hr
  | @progMismatch low high r bytes =>
    have hroom : c.room = 16 + r.length := le_room bytes
    refine ⟨16, ar.mismatch AcceptStat.progMismatch low high, by omega, rfl, ?_⟩
    have ht : c.ahead.take 16 = _ := take_all bytes rfl
    rw [ht, words_pair]
    refine replyUnion_accepted (hmis _ low high) ?_
    rw [acceptedArm_mismatch (hmis _ low high)]
    exact mismatch_puts ar _ low high
  | @otherStat s r bytes success progMismatch =>
    have hroom : c.room = 8 + r.length := le_room bytes
    refine ⟨8, ar.setStat s, by omega, rfl, ?_⟩
    have ht : c.ahead.take 8 = _ := take_all bytes rfl
    rw [ht, ← List.append_nil (words _)]
    refine replyUnion_accepted (hstat s) ?_
    rw [acceptedArm_other (by rwa [hstat]) (by rwa [hstat])]
    exact nothing_puts
  | @rpcMismatch low high r bytes =>
    have hroom : c.room = 16 + r.length := le_room bytes
    refine ⟨16, ar.mismatch RejectStat.rpcMismatch low high, by omega, rfl, ?_⟩
    have ht : c.ahead.take 16 = _ := take_all bytes rfl
    rw [ht, words_pair]
    refine replyUnion_denied (hmis _ low high) ?_
    rw [rejectedArm_mismatch (hmis _ low high)]
    exact mismatch_puts ar _ low high

/-! ## Replies -/

section Replymsg

variable {m : RpcMsg FlexxdrMem α}

theorem replymsg_true_iff (hd : m.rmDirection = MsgType.reply) (hh : m.body.high = .proc p)
    (hl : m.body.low = .ptr addr a) (c : MemCursor) :
    Returns (flexxdrReplymsg (memStrm .decode c) m) true ↔
      ReplyGrammar (fun d => Returns (p.code (memStrm .decode d) a) true) c := by
  rw [congrFun (replymsg_reply hd) _, returns_onField, ← takesReply_iff]
  constructor
  · rintro ⟨⟨st, out⟩, X, h⟩
    exact ⟨st, out, X, replyUnion_takes _ hh hl h⟩
  · rintro ⟨st, out, X, h⟩
    exact ⟨(st, out), X, h.union _ hh hl⟩

theorem replymsg_recodes (hd : m.rmDirection = MsgType.reply) (hh : m.body.high = .proc p)
    (hl : m.body.low = .ptr addr a) (hp : ∀ c, Recodes (memStrm .decode) (memStrm .encode) p.code a c) (c : MemCursor) :
    Recodes (memStrm .decode) (memStrm .encode) flexxdrReplymsg m c := by
  intro m' X h
  rw [congrFun (replymsg_reply hd) _] at h
  obtain ⟨⟨st, out⟩, hu, rfl⟩ := exists_of_onField h
  obtain ⟨n, out', hn, hX, hw⟩ := (replyUnion_takes _ hh hl hu).puts hh hp
  have hst : ((m.setRpStat st).setBody out).rpStat = st :=
    (RpcMsg.rpStat_setBody _ _).trans (RpcMsg.rpStat_setRpStat _ _)
  refine ⟨n, (((m.setRpStat st).setBody out).setRpStat st).setBody out', hn, hX, replymsg_puts hd ?_⟩
  rw [hst]
  exact hw

/-- **Replies are decoded from their grammar alone, and decoding one loses nothing.** -/
theorem replymsg_grammar (hd : m.rmDirection = MsgType.reply) (hh : m.body.high = .proc p)
    (hl : m.body.low = .ptr addr a) (c : MemCursor) :
    (Returns (flexxdrReplymsg (memStrm .decode c) m) true ↔
      ReplyGrammar (fun d => Returns (p.code (memStrm .decode d) a) true) c) ∧
    ((∀ d, Recodes (memStrm .decode) (memStrm .encode) p.code a d) →
      Recodes (memStrm .decode) (memStrm .encode) flexxdrReplymsg m c) :=
  ⟨replymsg_true_iff hd hh hl c, fun hp => replymsg_recodes hd hh hl hp c⟩

end Replymsg

/-- A word is encoded as the bytes that it was decoded from. -/
theorem enum_recodes (ep : Word) (c : MemCursor) : Recodes (memStrm .decode) (memStrm .encode) flexxdrEnum ep c := by
  intro v X h
  rcases word_cases c.ahead with hs | ⟨w, r, hc⟩
  · rw [enum_short ep hs] at h
    cases h
  · rw [enum_decode ep hc] at h
    cases h
    refine ⟨4, v, room_word hc, rfl, ?_⟩
    rw [hc, take_toBytes]
    exact enum_puts v

/-- A record that is prepared for a result of one word. -/
def wordMsg : RpcMsg FlexxdrMem Word :=
  ⟨7, MsgType.reply, 0, ⟨0, .ptr 8192 0, .proc { addr := 4096, code := flexxdrEnum }⟩⟩

/-- A reply with this result. -/
def wordReplyBytes : MemCursor := .ofBuffer (words [ReplyStat.msgAccepted, AcceptStat.success, 9]) (by decide)

theorem replymsg_grammar_wordMsg : Returns (flexxdrReplymsg (memStrm .decode wordReplyBytes) wordMsg) true ∧
    Recodes (memStrm .decode) (memStrm .encode) flexxdrReplymsg wordMsg wordReplyBytes := by
  have h := replymsg_grammar (m := wordMsg) (p := { addr := 4096, code := flexxdrEnum }) (a := 0) rfl rfl rfl wordReplyBytes
  refine ⟨h.1.mpr (Or.inl ⟨_, words [9], rfl, Or.inl ⟨rfl, ?_⟩⟩), h.2 (enum_recodes 0)⟩
  exact ⟨9, _, enum_decode (w := 9) (r := []) 0 rfl⟩

end Cornflakes.Flexrpc

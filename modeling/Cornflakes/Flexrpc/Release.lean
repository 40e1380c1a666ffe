import Cornflakes.Flexrpc.Cmsg
import Cornflakes.Flexrpc.Reply
import Cornflakes.Flexrpc.Str

/-!
# Releasing what was decoded (`FLEXXDR_FREE`)

An `XdrCodec` is one of the codecs with its limits and its component procedures. What it has decoded, whatever the
stream was, is released with TRUE and without touching the stream exactly when it is `Releasable`
(`released_iff`): a long never is, a string where its length can be found and passes, and a call message where the record
has the direction of a call.
-/

set_option autoImplicit false

namespace Cornflakes.Flexrpc

open Wire

variable {σ α β : Type}

/-- Some stream made the codec decode `v` with TRUE. -/
def Decoded (f : Flexxdr σ → α → Except Fault (Outcome σ α)) (v : α) : Prop :=
  ∃ X u X', X.fOp = .decode ∧ f X u = .ok (true, v, X')

/-- Whatever the stream, the codec releases `v` with TRUE and leaves the stream as it is. -/
def Releases (f : Flexxdr σ → α → Except Fault (Outcome σ α)) (v : α) : Prop :=
  ∀ Y, Y.fOp = .free → ∃ v', f Y v = .ok (true, v', Y)

/-- There is a stream to release with. -/
theorem Decoded.stream {f : Flexxdr σ → α → Except Fault (Outcome σ α)} {v : α} (h : Decoded f v) :
    ∃ Y : Flexxdr σ, Y.fOp = .free := by
  obtain ⟨X, -⟩ := h
  exact ⟨{ X with fOp := .free }, rfl⟩

/-- The codec releases whatever it has decoded. -/
def Law (f : Flexxdr σ → α → Except Fault (Outcome σ α)) : Prop := ∀ v, Decoded f v → Releases f v

/-! ## Codecs -/

inductive XdrCodec (σ : Type) : Type → Type 1
  | int : XdrCodec σ Word
  | enum : XdrCodec σ Word
  | long : XdrCodec σ ULong
  | uLong : XdrCodec σ ULong
  | char : XdrCodec σ Byte
  | uInt : XdrCodec σ Word
  | fixed (cnt : Word) : XdrCodec σ (List Byte)
  | bytes (A : Allocator) (maxsize : Word) : XdrCodec σ (Option (List Byte) × Word)
  | string (A : Allocator) (maxsize : Word) : XdrCodec σ (Option (List Byte))
  | union {α : Type} (choices : List (FlexxdrDiscrim σ α))
      (dfault : Option (Flexxdr σ → α → Except Fault (Outcome σ α))) : XdrCodec σ (Word × α)
  | callmsg {α : Type} : XdrCodec σ (RpcMsg σ α)
  | replymsg {α : Type} : XdrCodec σ (RpcMsg σ α)

namespace XdrCodec

def run : XdrCodec σ β → Flexxdr σ → β → Except Fault (Outcome σ β)
  | int => flexxdrInt
  | enum => flexxdrEnum
  | long => flexxdrLong
  | uLong => flexxdrULong
  | char => flexxdrChar
  | uInt => flexxdrUInt
  | fixed cnt => fun X cp => flexxdrOpaque X cp cnt
  | bytes A maxsize => fun X v => flexxdrBytes A X v.1 v.2 maxsize
  | string A maxsize => fun X cpp => flexxdrString A X cpp maxsize
  | union choices dfault => fun X v => flexxdrUnion X v.1 v.2 choices dfault
  | callmsg => flexxdrCallmsg
  | replymsg => flexxdrReplymsg

/-- The component procedures satisfy the law: the arms of a union, and the result procedure of a reply. -/
def Components : XdrCodec σ β → β → Prop
  | union choices dfault, _ =>
    (∀ d ∈ choices, ∀ p, d.proc = some p → Law p) ∧ ∀ p, dfault = some p → Law p
  | replymsg, m => ∀ p, m.body.high = .proc p → Law p.onSlot.code
  | _, _ => True

/-- What is released. -/
def Releasable : XdrCodec σ β → β → Prop
  | long, _ => False
  | string _ maxsize, cpp => ∃ sp n, cpp = some sp ∧ strlen sp = .ok n ∧ Passes (narrowed n) maxsize
  | callmsg, m => m.rmDirection = MsgType.call
  | _, _ => True

end XdrCodec

/-! ## Primitive codecs -/

section Primitive

variable {Y : Flexxdr σ}

theorem enum_free (hY : Y.fOp = .free) (ep : Word) : flexxdrEnum Y ep = .ok (true, ep, Y) := by
  simp only [flexxdrEnum, hY]

theorem uLong_free (hY : Y.fOp = .free) (ulp : ULong) : flexxdrULong Y ulp = .ok (true, ulp, Y) := by
  simp only [flexxdrULong, hY]

theorem uInt_free (hY : Y.fOp = .free) (up : Word) : flexxdrUInt Y up = .ok (true, up, Y) := by
  simp only [flexxdrUInt, hY]

/-- `flexxdr_long` has no case for it. -/
theorem long_free (hY : Y.fOp = .free) (lp : ULong) : flexxdrLong Y lp = .ok (false, lp, Y) := by
  simp only [flexxdrLong, hY, reduceCtorEq, false_and, if_false]

theorem long_not_releases {lp : ULong} (h : Decoded (flexxdrLong (σ := σ)) lp) : ¬ Releases (flexxdrLong (σ := σ)) lp := by
  intro hrel
  obtain ⟨Z, hZ⟩ := h.stream
  obtain ⟨v', hf⟩ := hrel Z hZ
  rw [long_free hZ] at hf
  cases hf

theorem char_free (hY : Y.fOp = .free) (cp : Byte) : flexxdrChar Y cp = .ok (true, cp, Y) := by
  have hi : flexxdrInt Y (cp.signExtend 32) = _ := enum_free hY _
  simp only [flexxdrChar, hi, ok_bind, Bool.not_true, Bool.false_eq_true, if_false, pure_eq_ok,
    setWidth_signExtend cp (show 8 ≤ 32 by omega)]

theorem fixed_free (hY : Y.fOp = .free) (cp : List Byte) (cnt : Word) :
    flexxdrOpaque Y cp cnt = .ok (true, cp, Y) := by
  by_cases h0 : cnt = 0
  · rw [h0]
    exact opaque_zero Y cp
  · simp only [flexxdrOpaque, if_neg h0, hY]

theorem bytes_free (A : Allocator) (hY : Y.fOp = .free) (cpp : Option (List Byte)) (size maxsize : Word) :
    flexxdrBytes A Y cpp size maxsize = .ok (true, (cpp, size), Y) := by
  simp only [flexxdrBytes, uInt_free hY, ok_bind, Bool.not_true, Bool.false_eq_true, if_false, hY, ne_eq,
    not_true_eq_false, and_false, pure_eq_ok]

/-- A string is released where its length is found and passes. -/
theorem string_free (A : Allocator) (hY : Y.fOp = .free) {sp : List Byte} {n : Nat} (hn : strlen sp = .ok n)
    (maxsize : Word) : flexxdrString A Y (some sp) maxsize = .ok (decide (Passes (narrowed n) maxsize), some sp, Y) := by
  unfold flexxdrString stringSize
  simp only [hY, hn, ok_bind, pure_eq_ok, uInt_free hY, Bool.not_true, Bool.false_eq_true, if_false]
  rw [show (BitVec.ofNat 32 n : Word) = narrowed n from rfl, size_checks]
  by_cases hp : Passes (narrowed n) maxsize
  · rw [if_pos hp, decide_eq_true hp]
  · rw [if_neg hp, decide_eq_false hp]

end Primitive

/-! ## Call messages -/

section Callmsg

/-- A record that was decoded as a call has the version of the protocol. -/
theorem callmsgFields_version (X : Flexxdr σ) (m : RpcMsg σ α) :
    Yields (fun m => m.cbRpcvers = flexrpcMsgVersion) (callmsgFields X m) := by
  refine Yields.andThen fun X m => Yields.andThen fun X m => ?_
  split
  · exact Yields.refused _ _ _
  refine Yields.andThen fun X m => ?_
  split
  · exact Yields.refused _ _ _
  · next hv =>
    have hv : m.cbRpcvers = flexrpcMsgVersion := not_not.mp hv
    refine Yields.of_leaves ?_
    refine Leaves.andThen (Leaves.onField (Leaves.any _) fun _ _ => hv) fun X m hv => ?_
    refine Leaves.andThen (Leaves.onField (Leaves.any _) fun _ _ => hv) fun X m hv => ?_
    exact Leaves.onField (Leaves.any _) fun _ _ => hv

theorem callmsgGet_version (X : Flexxdr σ) (buf : Nat) (m : RpcMsg σ α) :
    Yields (fun m => m.cbRpcvers = flexrpcMsgVersion) (callmsgGet X buf m) := by
  refine Yields.bind fun (v, b) => ?_
  dsimp only
  split
  · exact Yields.refused _ _ _
  · next hv =>
    refine Yields.bind fun _ => Yields.bind fun _ => Yields.bind fun _ => ?_
    intro m' X' h
    cases h
    exact not_not.mp hv

theorem Decoded.version {m : RpcMsg σ α} (h : Decoded flexxdrCallmsg m) : m.cbRpcvers = flexrpcMsgVersion := by
  obtain ⟨X, u, X', hX, hr⟩ := h
  have hy : Yields (fun m => m.cbRpcvers = flexrpcMsgVersion) (flexxdrCallmsg X u) := by
    simp only [flexxdrCallmsg, hX]
    refine Yields.bind fun (buf, X) => ?_
    cases buf with
    | none => exact callmsgFields_version X u
    | some buf => exact callmsgGet_version X buf u
  exact hy m X' hr

theorem callmsg_free {Y : Flexxdr σ} (hY : Y.fOp = .free) {m : RpcMsg σ α} (hv : m.cbRpcvers = flexrpcMsgVersion) :
    flexxdrCallmsg Y m = .ok (decide (m.rmDirection = MsgType.call), m, Y) := by
  simp only [flexxdrCallmsg, hY, callmsgFields, uLong_free hY, enum_free hY, onField_ok, andThen_true,
    RpcMsg.setRmXid_rmXid, RpcMsg.setRmDirection_rmDirection, RpcMsg.setCbRpcvers_cbRpcvers,
    RpcMsg.setCbProg_cbProg, RpcMsg.setCbVers_cbVers, RpcMsg.setCbProc_cbProc]
  by_cases hd : m.rmDirection = MsgType.call
  · rw [if_neg (not_not.mpr hd), if_neg (not_not.mpr hv), decide_eq_true hd]
  · rw [if_pos hd, decide_eq_false hd]

theorem callmsg_releases_iff {m : RpcMsg σ α} (h : Decoded flexxdrCallmsg m) :
    Releases flexxdrCallmsg m ↔ m.rmDirection = MsgType.call := by
  have hv := h.version
  constructor
  · intro hrel
    obtain ⟨Y, hY⟩ := h.stream
    obtain ⟨v', hf⟩ := hrel Y hY
    rw [callmsg_free hY hv] at hf
    exact of_decide_eq_true (congrArg Prod.fst (Except.ok.inj hf))
  · intro hd Y hY
    exact ⟨m, (callmsg_free hY hv).trans (by rw [decide_eq_true hd])⟩

end Callmsg

/-! ## Unions -/

section Union

/-- The procedure that a union goes on with after the discriminant `w`. -/
def Arm (choices : List (FlexxdrDiscrim σ α)) (dfault : Option (Flexxdr σ → α → Except Fault (Outcome σ α))) (w : Word)
    (p : Flexxdr σ → α → Except Fault (Outcome σ α)) : Prop :=
  flexxdrChoice w choices = .ok (some p) ∨ flexxdrChoice w choices = .ok none ∧ dfault = some p

/-- The arm of the table is in it. -/
theorem mem_of_choice {w : Word} {choices : List (FlexxdrDiscrim σ α)}
    {p : Flexxdr σ → α → Except Fault (Outcome σ α)} (h : flexxdrChoice w choices = .ok (some p)) :
    ∃ d ∈ choices, d.proc = some p := by
  induction choices with
  | nil => cases h
  | cons d choices ih =>
    rw [flexxdrChoice] at h
    rcases hd : d.proc with _ | q
    · simp only [hd] at h
      cases h
    · simp only [hd] at h
      split at h
      · cases h
        exact ⟨d, List.mem_cons_self, hd⟩
      · obtain ⟨e, he, hp⟩ := ih h
        exact ⟨e, List.mem_cons_of_mem d he, hp⟩

theorem getlong_fOp {X X' : Flexxdr σ} {l : Option ULong} (h : flexxdrGetlong X = .ok (l, X')) : X'.fOp = X.fOp := by
  unfold flexxdrGetlong at h
  split at h
  · cases h
  · obtain ⟨r, -, hr⟩ := exists_of_bind h
    cases hr
    rfl

/-- The operation of a stream is the same after a word was decoded. -/
theorem enum_fOp {X X' : Flexxdr σ} (hX : X.fOp = .decode) {ep w : Word} {ok : Bool}
    (h : flexxdrEnum X ep = .ok (ok, w, X')) : X'.fOp = .decode := by
  simp only [flexxdrEnum, hX] at h
  obtain ⟨⟨l, X₁⟩, hg, hr⟩ := exists_of_bind h
  have hX₁ : X₁.fOp = .decode := (getlong_fOp hg).trans hX
  cases l with
  | none =>
    cases hr
    exact hX₁
  | some l =>
    cases hr
    exact hX₁

variable {choices : List (FlexxdrDiscrim σ α)} {dfault : Option (Flexxdr σ → α → Except Fault (Outcome σ α))}

theorem union_eq_arm {X X' : Flexxdr σ} {d w : Word} {u : α} {p : Flexxdr σ → α → Except Fault (Outcome σ α)}
    (he : flexxdrEnum X d = .ok (true, w, X')) (hp : Arm choices dfault w p) :
    flexxdrUnion X d u choices dfault = onField (p X' u) (w, ·) := by
  unfold flexxdrUnion
  rw [he, ok_bind]
  rcases hp with hc | ⟨hc, hd⟩
  · simp only [Bool.not_true, Bool.false_eq_true, if_false, hc, ok_bind]
  · simp only [Bool.not_true, Bool.false_eq_true, if_false, hc, hd, ok_bind]

/-- A union that was decoded was decoded by an arm. -/
theorem Decoded.arm {w : Word} {v : α} (h : Decoded (fun X v => flexxdrUnion X v.1 v.2 choices dfault) (w, v)) :
    ∃ p, Arm choices dfault w p ∧ Decoded p v := by
  obtain ⟨X, ⟨d, u⟩, X', hX, hr⟩ := h
  unfold flexxdrUnion at hr
  obtain ⟨⟨ok, w', X₁⟩, he, hr⟩ := exists_of_bind hr
  cases ok with
  | false => cases hr
  | true =>
    obtain ⟨q, hc, hr⟩ := exists_of_bind hr
    have hX₁ := enum_fOp hX he
    -- The procedure that the discriminant chose decoded the rest.
    have hp {p : Flexxdr σ → α → Except Fault (Outcome σ α)} (h : onField (p X₁ u) (w', ·) = .ok (true, (w, v), X')) :
        w' = w ∧ Decoded p v := by
      obtain ⟨v', hv, hw⟩ := exists_of_onField h
      cases hw
      exact ⟨rfl, X₁, u, X', hX₁, hv⟩
    cases q with
    | some p =>
      obtain ⟨rfl, hv⟩ := hp hr
      exact ⟨p, Or.inl hc, hv⟩
    | none =>
      cases dfault with
      | none => cases hr
      | some p =>
        obtain ⟨rfl, hv⟩ := hp hr
        exact ⟨p, Or.inr ⟨hc, rfl⟩, hv⟩

/-- A union is released when its arm releases what it decoded. -/
theorem union_releases {w : Word} {v : α} {p : Flexxdr σ → α → Except Fault (Outcome σ α)}
    (ha : Arm choices dfault w p) (hp : Releases p v) :
    Releases (fun X v => flexxdrUnion X v.1 v.2 choices dfault) (w, v) := by
  intro Y hY
  obtain ⟨v', hv⟩ := hp Y hY
  exact ⟨(w, v'), (union_eq_arm (enum_free hY w) ha).trans (by rw [hv, onField_ok])⟩

end Union

/-! ## Replies -/

section Reply

theorem versions_free {Y : Flexxdr σ} (hY : Y.fOp = .free) (ar : ReplyBody σ α) :
    flexxdrVersions Y ar = .ok (true, ar, Y) := by
  simp only [flexxdrVersions, uLong_free hY, onField_ok, andThen_true, ReplyBody.setVersLow_versLow,
    ReplyBody.setVersHigh_versHigh]

/-- What decodes the bounds of a mismatch leaves the status alone. -/
theorem versions_stat (X : Flexxdr σ) (ar : ReplyBody σ α) :
    Leaves (fun out => out.stat = ar.stat) (flexxdrVersions X ar) := by
  have hl : Leaves (fun out : ReplyBody σ α => out.stat = ar.stat) (onField (flexxdrULong X ar.versLow) ar.setVersLow) :=
    Leaves.onField (Leaves.any _) fun _ _ => rfl
  exact Leaves.andThen hl fun X out h => Leaves.onField (Leaves.any _) fun _ _ => h

/-- Results that were decoded are released by their procedure. -/
theorem results_yields {X : Flexxdr σ} (hX : X.fOp = .decode) (ar : ReplyBody σ α) :
    Yields (fun out => out.stat = ar.stat ∧ ∃ p, out.high = .proc p ∧ Decoded p.onSlot.code out.low)
      (flexxdrResults X ar) := by
  intro out X' h
  unfold flexxdrResults at h
  split at h
  · next p hh =>
    obtain ⟨place, hc, rfl⟩ := exists_of_onField h
    obtain ⟨q, hq, hr⟩ := exists_of_callProc hc
    cases hq
    exact ⟨rfl, p, hh, X, ar.low, X', hX, hr⟩
  · cases h

theorem accepted_free {Y : Flexxdr σ} (hY : Y.fOp = .free) (ar : ReplyBody σ α) :
    flexxdrAcceptedReply Y ar = acceptedArm Y ar := by
  rw [flexxdrAcceptedReply, enum_free hY, onField_ok, andThen_true, ReplyBody.setStat_stat]

theorem rejected_free {Y : Flexxdr σ} (hY : Y.fOp = .free) (rr : ReplyBody σ α) :
    flexxdrRejectedReply Y rr = rejectedArm Y rr := by
  rw [flexxdrRejectedReply, enum_free hY, onField_ok, andThen_true, ReplyBody.setStat_stat]

theorem accepted_releases {ar : ReplyBody σ α} (hp : ∀ p, ar.high = .proc p → Law p.onSlot.code)
    (hd : Decoded flexxdrAcceptedReply ar) : Releases flexxdrAcceptedReply ar := by
  obtain ⟨X, u, X', hX, hr⟩ := hd
  obtain ⟨w, X₁, he, harm⟩ := exists_of_andThen hr
  have hw : (u.setStat w).stat = w := ReplyBody.stat_setStat _ _
  intro Y hY
  rw [accepted_free hY]
  by_cases hs : w = AcceptStat.success
  · rw [congrFun (acceptedArm_success (hw.trans hs)) X₁] at harm
    obtain ⟨hst, p, hh, ha⟩ := results_yields (enum_fOp hX he) _ _ _ harm
    obtain ⟨place, hf⟩ := hp p hh ar.low ha Y hY
    refine ⟨{ ar with low := place }, ?_⟩
    rw [congrFun (acceptedArm_success ((hst.trans hw).trans hs)) Y]
    unfold flexxdrResults
    rw [hh]
    simp only [callProc_ok hf, onField_ok]
  by_cases hm : w = AcceptStat.progMismatch
  · rw [congrFun (acceptedArm_mismatch (hw.trans hm)) X₁] at harm
    have hst : ar.stat = (u.setStat w).stat := versions_stat X₁ _ _ _ _ harm
    rw [congrFun (acceptedArm_mismatch ((hst.trans hw).trans hm)) Y]
    exact ⟨ar, versions_free hY ar⟩
  · rw [congrFun (acceptedArm_other (by rwa [hw]) (by rwa [hw])) X₁] at harm
    cases harm
    rw [congrFun (acceptedArm_other (by rwa [hw]) (by rwa [hw])) Y]
    exact ⟨_, rfl⟩

theorem rejected_releases {rr : ReplyBody σ α} (hd : Decoded flexxdrRejectedReply rr) :
    Releases flexxdrRejectedReply rr := by
  obtain ⟨X, u, X', hX, hr⟩ := hd
  obtain ⟨w, X₁, he, harm⟩ := exists_of_andThen hr
  have hw : (u.setStat w).stat = w := ReplyBody.stat_setStat _ _
  intro Y hY
  rw [rejected_free hY]
  by_cases hm : w = RejectStat.rpcMismatch
  · rw [congrFun (rejectedArm_mismatch (hw.trans hm)) X₁] at harm
    have hst : rr.stat = (u.setStat w).stat := versions_stat X₁ _ _ _ _ harm
    rw [congrFun (rejectedArm_mismatch ((hst.trans hw).trans hm)) Y]
    exact ⟨rr, versions_free hY rr⟩
  · rw [congrFun (rejectedArm_other (by rwa [hw])) X₁] at harm
    cases harm

/-- The table of replies has two arms. -/
theorem replyDscrm_arm {w : Word} {p : Flexxdr σ → ReplyBody σ α → Except Fault (Outcome σ (ReplyBody σ α))}
    (h : Arm replyDscrm none w p) : p = flexxdrAcceptedReply ∨ p = flexxdrRejectedReply := by
  rcases h with h | ⟨-, h⟩
  · obtain ⟨d, hd, hp⟩ := mem_of_choice h
    simp only [replyDscrm, List.mem_cons, List.not_mem_nil, or_false] at hd
    rcases hd with rfl | rfl | rfl
    · cases hp
      exact Or.inl rfl
    · cases hp
      exact Or.inr rfl
    · cases hp
  · cases h

theorem replymsg_releases {m : RpcMsg σ α} (hp : ∀ p, m.body.high = .proc p → Law p.onSlot.code)
    (hd : Decoded flexxdrReplymsg m) : Releases flexxdrReplymsg m := by
  obtain ⟨X, u, X', hX, hr⟩ := hd
  unfold flexxdrReplymsg at hr
  split at hr
  · next hdir =>
    obtain ⟨⟨st, ru⟩, hu, rfl⟩ := exists_of_onField hr
    -- The union that was decoded is the one that is released.
    obtain ⟨p, ha, hdp⟩ := Decoded.arm (w := st) (v := ru) ⟨X, (u.rpStat, u.body), X', hX, hu⟩
    have hrel : Releases p ru := by
      rcases replyDscrm_arm ha with rfl | rfl
      · exact accepted_releases hp hdp
      · exact rejected_releases hdp
    intro Y hY
    obtain ⟨⟨st', ru'⟩, hv⟩ := union_releases ha hrel Y hY
    have hst : ((u.setRpStat st).setBody ru).rpStat = st :=
      (RpcMsg.rpStat_setBody _ _).trans (RpcMsg.rpStat_setRpStat _ _)
    have hd : ((u.setRpStat st).setBody ru).rmDirection = MsgType.reply := hdir
    have hm : flexxdrReplymsg Y ((u.setRpStat st).setBody ru) = _ := congrFun (replymsg_reply hd) Y
    rw [hst, show ((u.setRpStat st).setBody ru).body = ru from rfl] at hm
    exact ⟨_, hm.trans (congrArg (onField · _) hv)⟩
  · cases hr

end Reply

/-! ## Every codec -/

/-- A string that was decoded is in a buffer. -/
theorem Decoded.buffer {A : Allocator} {maxsize : Word} {cpp : Option (List Byte)}
    (h : Decoded (fun (X : Flexxdr σ) cpp => flexxdrString A X cpp maxsize) cpp) : ∃ sp, cpp = some sp := by
  obtain ⟨X, u, X', hX, hr⟩ := h
  have hue : flexxdrUInt X 0 = flexxdrEnum X 0 := by
    simp only [flexxdrUInt, flexxdrEnum, hX]
  simp only [flexxdrString, stringSize, hX, ok_bind, pure_eq_ok, hue] at hr
  obtain ⟨⟨ok, size, X₁⟩, he, hr⟩ := exists_of_bind hr
  cases ok with
  | false => cases hr
  | true =>
    simp only [Bool.not_true, Bool.false_eq_true, if_false, enum_fOp hX he, size_checks] at hr
    split at hr
    · split at hr
      · cases hr
      · obtain ⟨sp, -, rfl⟩ := exists_of_onField hr
        exact ⟨sp, rfl⟩
    · cases hr

theorem string_releases_iff {A : Allocator} {maxsize : Word} {cpp : Option (List Byte)}
    (h : Decoded (fun (X : Flexxdr σ) cpp => flexxdrString A X cpp maxsize) cpp) :
    Releases (fun (X : Flexxdr σ) cpp => flexxdrString A X cpp maxsize) cpp ↔
      ∃ sp n, cpp = some sp ∧ strlen sp = .ok n ∧ Passes (narrowed n) maxsize := by
  obtain ⟨sp, rfl⟩ := h.buffer
  constructor
  · intro hrel
    obtain ⟨Y, hY⟩ := h.stream
    obtain ⟨v', hf⟩ := hrel Y hY
    simp only at hf
    rcases hn : strlen sp with f | n
    · simp only [flexxdrString, stringSize, hY, hn] at hf
      cases hf
    · rw [string_free A hY hn] at hf
      refine ⟨sp, n, rfl, hn, ?_⟩
      exact of_decide_eq_true (congrArg Prod.fst (Except.ok.inj hf))
  · rintro ⟨sp', n, hs, hn, hp⟩ Y hY
    cases hs
    exact ⟨some sp, (string_free A hY hn maxsize).trans (by rw [decide_eq_true hp])⟩

/-- **What was decoded is released, exactly when it is releasable.** -/
theorem released_iff (k : XdrCodec σ β) {v : β} (hk : k.Components v) (hd : Decoded k.run v) :
    Releases k.run v ↔ k.Releasable v := by
  cases k with
  | int => exact iff_of_true (fun Y hY => ⟨v, enum_free hY v⟩) trivial
  | enum => exact iff_of_true (fun Y hY => ⟨v, enum_free hY v⟩) trivial
  | long => exact iff_of_false (long_not_releases hd) id
  | uLong => exact iff_of_true (fun Y hY => ⟨v, uLong_free hY v⟩) trivial
  | char => exact iff_of_true (fun Y hY => ⟨v, char_free hY v⟩) trivial
  | uInt => exact iff_of_true (fun Y hY => ⟨v, uInt_free hY v⟩) trivial
  | fixed cnt => exact iff_of_true (fun Y hY => ⟨v, fixed_free hY v cnt⟩) trivial
  | bytes A maxsize => exact iff_of_true (fun Y hY => ⟨v, bytes_free A hY v.1 v.2 maxsize⟩) trivial
  | string A maxsize => exact string_releases_iff hd
  | union choices dfault =>
    obtain ⟨w, u⟩ := v
    obtain ⟨p, ha, hp⟩ := Decoded.arm hd
    have hl : Law p := by
      rcases ha with hc | ⟨-, hf⟩
      · obtain ⟨d, hm, hdp⟩ := mem_of_choice hc
        exact hk.1 d hm p hdp
      · exact hk.2 p hf
    exact iff_of_true (union_releases ha (hl u hp)) trivial
  | callmsg => exact callmsg_releases_iff hd
  | replymsg => exact iff_of_true (replymsg_releases hk hd) trivial

/-- A union of one arm, a number, and the words that it was decoded from. -/
def numberUnion : XdrCodec FlexxdrMem (Word × ULong) := .union [⟨1, some flexxdrULong⟩, ⟨0, none⟩] none

theorem uLong_law : Law (fun (X : Flexxdr FlexxdrMem) ulp => flexxdrULong X ulp) := fun v _ _ hY => ⟨v, uLong_free hY v⟩

theorem numberUnion_components (v : Word × ULong) : numberUnion.Components v := by
  refine ⟨fun d hd p hp => ?_, fun p hp => by cases hp⟩
  simp only [List.mem_cons, List.not_mem_nil, or_false] at hd
  rcases hd with rfl | rfl
  · cases hp
    exact uLong_law
  · cases hp

theorem numberUnion_decoded : Decoded numberUnion.run (1, 5) := by
  have hu : Takes (memStrm .decode) (fun X => flexxdrUnion X 0 (0 : ULong) [⟨1, some flexxdrULong⟩, ⟨0, none⟩] none)
      (1, 5) (toBytes 1 ++ toBytes 5) := union_takes rfl (uLong_takes 0 5)
  exact ⟨_, (0, 0), _, rfl, hu (MemCursor.ofBuffer (words [1, 5]) (by decide)) [] rfl⟩

theorem released_numberUnion : Releases numberUnion.run (1, 5) :=
  (released_iff numberUnion (numberUnion_components _) numberUnion_decoded).mpr trivial

/-- A long that was decoded, and is not released. -/
theorem long_kept : Decoded (XdrCodec.run (σ := FlexxdrMem) .long) 5 ∧ ¬ Releases (XdrCodec.run (σ := FlexxdrMem) .long) 5 := by
  have hd : Decoded (fun (X : Flexxdr FlexxdrMem) lp => flexxdrLong X lp) 5 :=
    ⟨memStrm .decode (MemCursor.ofBuffer (words [5]) (by decide)), 0, _, rfl, long_takes 0 5 _ [] rfl⟩
  exact ⟨hd, long_not_releases hd⟩

end Cornflakes.Flexrpc

import Cornflakes.Wire.Alike
import Cornflakes.Flexrpc.Str
import Cornflakes.Flexrpc.Prot
import Cornflakes.Flexrpc.Cmsg

/-!
# The codecs on two kinds of streams

The codecs reach their stream through the table of operations only. So on two handles that a relation `R` connects, for
which the operations on words do the same and stay connected (`Parallel`), every codec of words does the same; and with
the operations on bytes (`ParallelBytes`) so do the codecs of bytes and strings.

The objects can hold procedures for the one stream and for the other: `SameProc` says that these do the same, and
`SameSlot`, `SameBody` and `SameMsg` that two places, replies or records hold the same but for that.
-/

set_option autoImplicit false

namespace Cornflakes.Flexrpc

open Wire

variable {σ τ α β : Type}

/-- Connected handles go the way `op`, and the operations on words that this way uses do the same on them. -/
structure Parallel (op : FlexxdrOp) (R : Flexxdr σ → Flexxdr τ → Prop) : Prop where
  left : ∀ X Y, R X Y → X.fOp = op
  right : ∀ X Y, R X Y → Y.fOp = op
  getlong : op = .decode → ∀ X Y, R X Y →
    Alike (fun p q => p.1 = q.1 ∧ R p.2 q.2) (flexxdrGetlong X) (flexxdrGetlong Y)
  putlong : op = .encode → ∀ X Y, R X Y → ∀ lp,
    Alike (fun p q => p.1 = q.1 ∧ R p.2 q.2) (flexxdrPutlong X lp) (flexxdrPutlong Y lp)

/-- So do the operations on bytes. -/
structure ParallelBytes (op : FlexxdrOp) (R : Flexxdr σ → Flexxdr τ → Prop) : Prop extends Parallel op R where
  getbytes : op = .decode → ∀ X Y, R X Y → ∀ len,
    Alike (fun p q => p.1 = q.1 ∧ p.2.1 = q.2.1 ∧ R p.2.2 q.2.2) (flexxdrGetbytes X len) (flexxdrGetbytes Y len)
  putbytes : op = .encode → ∀ X Y, R X Y → ∀ addr len,
    Alike (fun p q => p.1 = q.1 ∧ R p.2 q.2) (flexxdrPutbytes X addr len) (flexxdrPutbytes Y addr len)

variable {op : FlexxdrOp} {R : Flexxdr σ → Flexxdr τ → Prop} {X : Flexxdr σ} {Y : Flexxdr τ}

/-! ## Words -/

section Words

/-- A decoder that stores what it makes of a word. -/
theorem getlong_alike (hR : Parallel .decode R) (h : R X Y) (a : α) (f : ULong → α) :
    Alike (Outcomes Eq R)
      (do match ← flexxdrGetlong X with
        | (none, X) => return (false, a, X)
        | (some l, X) => return (true, f l, X))
      (do match ← flexxdrGetlong Y with
        | (none, X) => return (false, a, X)
        | (some l, X) => return (true, f l, X)) := by
  refine (hR.getlong rfl X Y h).bind ?_
  rintro ⟨l, X'⟩ ⟨l', Y'⟩ ⟨hl, hs⟩
  simp only at hl hs
  subst hl
  cases l with
  | none => exact .outcome rfl hs
  | some l => exact .outcome rfl hs

/-- An encoder that keeps its object. -/
theorem putlong_alike (hR : Parallel .encode R) (h : R X Y) (a : α) (lp : ULong) :
    Alike (Outcomes Eq R)
      (do
        let (ok, X) ← flexxdrPutlong X lp
        return (ok, a, X))
      (do
        let (ok, X) ← flexxdrPutlong Y lp
        return (ok, a, X)) := by
  refine (hR.putlong rfl X Y h lp).bind ?_
  rintro ⟨ok, X'⟩ ⟨ok', Y'⟩ ⟨hb, hs⟩
  exact .ok ⟨hb, rfl, hs⟩

theorem enum_alike (hR : Parallel op R) (h : R X Y) (ep : Word) :
    Alike (Outcomes Eq R) (flexxdrEnum X ep) (flexxdrEnum Y ep) := by
  unfold flexxdrEnum
  rw [hR.left X Y h, hR.right X Y h]
  cases op with
  | encode => exact putlong_alike hR h ep _
  | decode => exact getlong_alike hR h ep _
  | free => exact .outcome rfl h

theorem uInt_alike (hR : Parallel op R) (h : R X Y) (up : Word) :
    Alike (Outcomes Eq R) (flexxdrUInt X up) (flexxdrUInt Y up) := by
  unfold flexxdrUInt
  rw [hR.left X Y h, hR.right X Y h]
  cases op with
  | encode => exact putlong_alike hR h up _
  | decode => exact getlong_alike hR h up _
  | free => exact .outcome rfl h

theorem uLong_alike (hR : Parallel op R) (h : R X Y) (ulp : ULong) :
    Alike (Outcomes Eq R) (flexxdrULong X ulp) (flexxdrULong Y ulp) := by
  unfold flexxdrULong
  rw [hR.left X Y h, hR.right X Y h]
  cases op with
  | encode =>
    dsimp only
    split
    · exact .outcome rfl h
    · exact putlong_alike hR h ulp _
  | decode => exact getlong_alike hR h ulp _
  | free => exact .outcome rfl h

end Words

/-! ## Bytes and strings -/

section Bytes

theorem opaque_alike (hR : ParallelBytes op R) (h : R X Y) (cp : List Byte) (cnt : Word) :
    Alike (Outcomes Eq R) (flexxdrOpaque X cp cnt) (flexxdrOpaque Y cp cnt) := by
  unfold flexxdrOpaque
  rw [hR.left X Y h, hR.right X Y h]
  split
  · exact .outcome rfl h
  · cases op with
    | decode =>
      refine (hR.getbytes rfl X Y h cnt).bind ?_
      rintro ⟨ok, bs, X₁⟩ ⟨ok', bs', Y₁⟩ ⟨hb, hbs, h₁⟩
      simp only at hb hbs h₁ ⊢
      subst hb hbs
      cases Block.write cp 0 bs with
      | none => exact .error _
      | some cp' =>
        dsimp only
        split
        · exact .outcome rfl h₁
        · split
          · exact .outcome rfl h₁
          · refine (hR.getbytes rfl X₁ Y₁ h₁ (rndup cnt)).bind ?_
            rintro ⟨ok₂, bs₂, X₂⟩ ⟨ok₂', bs₂', Y₂⟩ ⟨hb₂, -, h₂⟩
            exact .ok ⟨hb₂, rfl, h₂⟩
    | encode =>
      refine (hR.putbytes rfl X Y h cp cnt).bind ?_
      rintro ⟨ok, X₁⟩ ⟨ok', Y₁⟩ ⟨hb, h₁⟩
      simp only at hb h₁ ⊢
      subst hb
      split
      · exact .outcome rfl h₁
      · split
        · exact .outcome rfl h₁
        · refine (hR.putbytes rfl X₁ Y₁ h₁ flexxdrZero (rndup cnt)).bind ?_
          rintro ⟨ok₂, X₂⟩ ⟨ok₂', Y₂⟩ ⟨hb₂, h₂⟩
          exact .ok ⟨hb₂, rfl, h₂⟩
    | free => exact .outcome rfl h

theorem string_alike (A : Allocator) (hR : ParallelBytes op R) (h : R X Y) (cpp : Option (List Byte))
    (maxsize : Word) : Alike (Outcomes Eq R) (flexxdrString A X cpp maxsize) (flexxdrString A Y cpp maxsize) := by
  unfold flexxdrString
  rw [hR.left X Y h, hR.right X Y h]
  rcases stringSize op cpp with f | ret | size
  · exact .error f
  · exact .outcome rfl h
  · refine (uInt_alike hR.toParallel h size).bind ?_
    rintro ⟨ok, size, X₁⟩ ⟨ok', size', Y₁⟩ ⟨hb, hs, h₁⟩
    simp only at hb hs h₁ ⊢
    subst hb hs
    rw [hR.left X₁ Y₁ h₁, hR.right X₁ Y₁ h₁]
    split
    · exact .outcome rfl h₁
    · split
      · exact .outcome rfl h₁
      · split
        · exact .outcome rfl h₁
        · cases op with
          | decode =>
            dsimp only
            cases cpp.or (A.memAlloc (size + 1)) with
            | none => exact .outcome rfl h₁
            | some sp => exact (opaque_alike hR h₁ sp size).onField fun _ _ he => congrArg some he
          | encode => exact (opaque_alike hR h₁ _ size).onField fun _ _ _ => rfl
          | free => exact .outcome rfl h₁

end Bytes

/-! ## Unions -/

/-- The arms at one place of two tables: the same discriminant, and procedures that do the same. -/
structure SameArm (R : Flexxdr σ → Flexxdr τ → Prop) (U : α → β → Prop) (d : FlexxdrDiscrim σ α)
    (e : FlexxdrDiscrim τ β) : Prop where
  value : d.value = e.value
  proc : Option.Rel (fun p q => ∀ X Y u v, R X Y → U u v → Alike (Outcomes U R) (p X u) (q Y v)) d.proc e.proc

section Union

variable {U : α → β → Prop} {choices : List (FlexxdrDiscrim σ α)} {choices' : List (FlexxdrDiscrim τ β)}

theorem choice_alike (hc : List.Forall₂ (SameArm R U) choices choices') (dscm : Word) :
    Alike (Option.Rel fun p q => ∀ X Y u v, R X Y → U u v → Alike (Outcomes U R) (p X u) (q Y v))
      (flexxdrChoice dscm choices) (flexxdrChoice dscm choices') := by
  induction hc with
  | nil => exact .error _
  | @cons d e ds es hd _ ih =>
    obtain ⟨v, p⟩ := d
    obtain ⟨w, q⟩ := e
    obtain ⟨hv, hp⟩ := hd
    simp only at hv hp
    subst hv
    cases hp with
    | none => exact .ok .none
    | some hp =>
      simp only [flexxdrChoice]
      split
      · exact .ok (.some hp)
      · exact ih

theorem union_alike (hR : Parallel op R) (h : R X Y) (d : Word) {u : α} {v : β} (hu : U u v)
    (hc : List.Forall₂ (SameArm R U) choices choices')
    {dfault : Option (Flexxdr σ → α → Except Fault (Outcome σ α))}
    {dfault' : Option (Flexxdr τ → β → Except Fault (Outcome τ β))}
    (hd : Option.Rel (fun p q => ∀ X Y u v, R X Y → U u v → Alike (Outcomes U R) (p X u) (q Y v)) dfault dfault') :
    Alike (Outcomes (fun (o : Word × α) (o' : Word × β) => o.1 = o'.1 ∧ U o.2 o'.2) R)
      (flexxdrUnion X d u choices dfault) (flexxdrUnion Y d v choices' dfault') := by
  unfold flexxdrUnion
  refine (enum_alike hR h d).bind ?_
  rintro ⟨ok, w, X₁⟩ ⟨ok', w', Y₁⟩ ⟨hb, hw, h₁⟩
  simp only at hb hw h₁ ⊢
  subst hb hw
  split
  · exact .outcome ⟨rfl, hu⟩ h₁
  · refine (choice_alike hc w).bind fun p q hp => ?_
    cases hp with
    | some hp => exact (hp X₁ Y₁ u v h₁ hu).onField fun _ _ ha => ⟨rfl, ha⟩
    | none =>
      cases hd with
      | none => exact .outcome ⟨rfl, hu⟩ h₁
      | some hp => exact (hp X₁ Y₁ u v h₁ hu).onField fun _ _ ha => ⟨rfl, ha⟩

end Union

/-! ## Records with procedures -/

/-- Two procedures at one address that do the same on connected handles, given related objects or one and the same
pointer to none. -/
structure SameProc (R : Flexxdr σ → Flexxdr τ → Prop) (T : α → β → Prop) (p : FlexxdrProc σ α)
    (q : FlexxdrProc τ β) : Prop where
  addr : p.addr = q.addr
  code : ∀ X Y a b, R X Y → T a b → Alike (Outcomes T R) (p.code X a) (q.code Y b)
  stray : ∀ X Y w, R X Y → Alike (Outcomes Eq R) (p.stray X w) (q.stray Y w)

inductive SameSlot (R : Flexxdr σ → Flexxdr τ → Prop) (T : α → β → Prop) : Slot σ α → Slot τ β → Prop
  | word (w : ULong) : SameSlot R T (.word w) (.word w)
  | ptr (addr : ULong) {a : α} {b : β} (h : T a b) : SameSlot R T (.ptr addr a) (.ptr addr b)
  | proc {p : FlexxdrProc σ α} {q : FlexxdrProc τ β} (h : SameProc R T p q) : SameSlot R T (.proc p) (.proc q)

structure SameBody (R : Flexxdr σ → Flexxdr τ → Prop) (T : α → β → Prop) (ar : ReplyBody σ α)
    (br : ReplyBody τ β) : Prop where
  status : ar.status = br.status
  low : SameSlot R T ar.low br.low
  high : SameSlot R T ar.high br.high

structure SameMsg (R : Flexxdr σ → Flexxdr τ → Prop) (T : α → β → Prop) (m : RpcMsg σ α) (m' : RpcMsg τ β) :
    Prop where
  rmXid : m.rmXid = m'.rmXid
  rmDirection : m.rmDirection = m'.rmDirection
  rpHead : m.rpHead = m'.rpHead
  body : SameBody R T m.body m'.body

section Records

variable {T : α → β → Prop}

namespace SameSlot

variable {s : Slot σ α} {t : Slot τ β}

theorem toWord (h : SameSlot R T s t) : s.toWord = t.toWord := by
  cases h with
  | word w => rfl
  | ptr addr h => rfl
  | proc h => exact h.addr

theorem store (h : SameSlot R T s t) (w : ULong) : SameSlot R T (s.store w) (t.store w) := by
  unfold Slot.store
  rw [h.toWord]
  split
  · exact h
  · exact word w

end SameSlot

/-- Given places that hold the same, they do the same. -/
theorem SameProc.onSlot {p : FlexxdrProc σ α} {q : FlexxdrProc τ β} (h : SameProc R T p q) :
    SameProc R (SameSlot R T) p.onSlot q.onSlot where
  addr := h.addr
  code X Y s t hX hs := by
    cases hs with
    | word w =>
      rw [onSlot_word, onSlot_word]
      exact (h.stray X Y w hX).onField fun _ _ _ => SameSlot.word w
    | ptr addr hab =>
      rw [onSlot_ptr, onSlot_ptr]
      exact (h.code X Y _ _ hX hab).onField fun _ _ hab => SameSlot.ptr addr hab
    | @proc p' q' hp =>
      rw [onSlot_proc, onSlot_proc, hp.addr]
      exact (h.stray X Y q'.addr hX).onField fun _ _ _ => SameSlot.proc hp
  stray := h.stray

namespace SameBody

variable {ar : ReplyBody σ α} {br : ReplyBody τ β}

theorem stat (h : SameBody R T ar br) : ar.stat = br.stat := congrArg (BitVec.setWidth 32) h.status

theorem setStat (h : SameBody R T ar br) (e : Word) : SameBody R T (ar.setStat e) (br.setStat e) :=
  ⟨congrArg (setLow · e) h.status, h.low, h.high⟩

theorem setVersLow (h : SameBody R T ar br) (v : ULong) : SameBody R T (ar.setVersLow v) (br.setVersLow v) :=
  ⟨h.status, h.low.store v, h.high⟩

theorem setVersHigh (h : SameBody R T ar br) (v : ULong) : SameBody R T (ar.setVersHigh v) (br.setVersHigh v) :=
  ⟨h.status, h.low, h.high.store v⟩

end SameBody

namespace SameMsg

variable {m : RpcMsg σ α} {m' : RpcMsg τ β}

theorem setRmXid (h : SameMsg R T m m') (xid : ULong) : SameMsg R T (m.setRmXid xid) (m'.setRmXid xid) :=
  ⟨rfl, h.rmDirection, h.rpHead, h.body⟩

theorem setRmDirection (h : SameMsg R T m m') (d : Word) : SameMsg R T (m.setRmDirection d) (m'.setRmDirection d) :=
  ⟨h.rmXid, rfl, h.rpHead, h.body⟩

theorem setCbRpcvers (h : SameMsg R T m m') (v : ULong) : SameMsg R T (m.setCbRpcvers v) (m'.setCbRpcvers v) :=
  ⟨h.rmXid, h.rmDirection, rfl, h.body⟩

theorem setCbProg (h : SameMsg R T m m') (v : ULong) : SameMsg R T (m.setCbProg v) (m'.setCbProg v) :=
  ⟨h.rmXid, h.rmDirection, h.rpHead, rfl, h.body.low, h.body.high⟩

theorem setCbVers (h : SameMsg R T m m') (v : ULong) : SameMsg R T (m.setCbVers v) (m'.setCbVers v) :=
  ⟨h.rmXid, h.rmDirection, h.rpHead, h.body.status, h.body.low.store v, h.body.high⟩

theorem setCbProc (h : SameMsg R T m m') (v : ULong) : SameMsg R T (m.setCbProc v) (m'.setCbProc v) :=
  ⟨h.rmXid, h.rmDirection, h.rpHead, h.body.status, h.body.low, h.body.high.store v⟩

theorem setCall (h : SameMsg R T m m') (prog vers proc : Word) :
    SameMsg R T (m.setCall prog vers proc) (m'.setCall prog vers proc) :=
  (((h.setCbRpcvers _).setCbProg _).setCbVers _).setCbProc _

theorem setBody (h : SameMsg R T m m') {ar : ReplyBody σ α} {br : ReplyBody τ β} (hb : SameBody R T ar br) (st : Word) :
    SameMsg R T ((m.setRpStat st).setBody ar) ((m'.setRpStat st).setBody br) :=
  ⟨h.rmXid, h.rmDirection, congrArg (setLow · st) h.rpHead, hb⟩

theorem cbProg (h : SameMsg R T m m') : m.cbProg = m'.cbProg := h.body.status

theorem cbVers (h : SameMsg R T m m') : m.cbVers = m'.cbVers := h.body.low.toWord

theorem cbProc (h : SameMsg R T m m') : m.cbProc = m'.cbProc := h.body.high.toWord

theorem rpStat (h : SameMsg R T m m') : m.rpStat = m'.rpStat := congrArg (BitVec.setWidth 32) h.rpHead

end SameMsg

/-! ## Replies and call headers -/

/-- NULL on both sides, or procedures that do the same. -/
theorem callProc_alike {p : Option (FlexxdrProc σ α)} {q : Option (FlexxdrProc τ β)}
    (hp : Option.Rel (SameProc R T) p q) (h : R X Y) {a : α} {b : β} (ha : T a b) :
    Alike (Outcomes T R) (callProc p X a) (callProc q Y b) := by
  cases hp with
  | none => exact .error _
  | some hp => exact (hp.code X Y a b h ha).mapError _

variable {ar : ReplyBody σ α} {br : ReplyBody τ β}

theorem versions_alike (hR : Parallel op R) (h : R X Y) (ha : SameBody R T ar br) :
    Alike (Outcomes (SameBody R T) R) (flexxdrVersions X ar) (flexxdrVersions Y br) := by
  have hl : ar.versLow = br.versLow := ha.low.toWord
  unfold flexxdrVersions
  rw [hl]
  refine ((uLong_alike hR h br.versLow).onField fun v w hv => ?_).andThen fun X Y ar br h ha => ?_
  · subst hv
    exact ha.setVersLow v
  · have hh : ar.versHigh = br.versHigh := ha.high.toWord
    rw [hh]
    refine (uLong_alike hR h br.versHigh).onField fun v w hv => ?_
    subst hv
    exact ha.setVersHigh v

theorem results_alike (h : R X Y) (ha : SameBody R T ar br) :
    Alike (Outcomes (SameBody R T) R) (flexxdrResults X ar) (flexxdrResults Y br) := by
  obtain ⟨st, low, high⟩ := ar
  obtain ⟨st', low', high'⟩ := br
  obtain ⟨hst, hlow, hhigh⟩ := ha
  simp only at hst hlow hhigh
  unfold flexxdrResults
  cases hhigh with
  | word w => exact .error _
  | ptr addr _ => exact .error _
  | proc hp => exact (callProc_alike (.some hp.onSlot) h hlow).onField fun _ _ hplace => ⟨hst, hplace, .proc hp⟩

theorem accepted_alike (hR : Parallel op R) (h : R X Y) (ha : SameBody R T ar br) :
    Alike (Outcomes (SameBody R T) R) (flexxdrAcceptedReply X ar) (flexxdrAcceptedReply Y br) := by
  unfold flexxdrAcceptedReply
  rw [ha.stat]
  refine ((enum_alike hR h br.stat).onField fun e e' he => ?_).andThen fun X Y ar br h ha => ?_
  · subst he
    exact ha.setStat e
  · unfold acceptedArm
    rw [ha.stat]
    split
    · exact results_alike h ha
    · split
      · exact versions_alike hR h ha
      · exact .outcome ha h

theorem rejected_alike (hR : Parallel op R) (h : R X Y) (ha : SameBody R T ar br) :
    Alike (Outcomes (SameBody R T) R) (flexxdrRejectedReply X ar) (flexxdrRejectedReply Y br) := by
  unfold flexxdrRejectedReply
  rw [ha.stat]
  refine ((enum_alike hR h br.stat).onField fun e e' he => ?_).andThen fun X Y ar br h ha => ?_
  · subst he
    exact ha.setStat e
  · unfold rejectedArm
    rw [ha.stat]
    split
    · exact versions_alike hR h ha
    · exact .outcome ha h

theorem replymsg_alike (hR : Parallel op R) (h : R X Y) {m : RpcMsg σ α} {m' : RpcMsg τ β} (hm : SameMsg R T m m') :
    Alike (Outcomes (SameMsg R T) R) (flexxdrReplymsg X m) (flexxdrReplymsg Y m') := by
  unfold flexxdrReplymsg
  rw [hm.rmDirection, hm.rpStat]
  split
  · have hc : List.Forall₂ (SameArm R (SameBody R T)) (replyDscrm : List (FlexxdrDiscrim σ (ReplyBody σ α)))
        (replyDscrm : List (FlexxdrDiscrim τ (ReplyBody τ β))) :=
      .cons ⟨rfl, .some fun _ _ _ _ h hu => accepted_alike hR h hu⟩ <|
      .cons ⟨rfl, .some fun _ _ _ _ h hu => rejected_alike hR h hu⟩ <|
      .cons ⟨rfl, .none⟩ .nil
    refine (union_alike hR h _ hm.body hc .none).onField fun u u' hu => ?_
    obtain ⟨st, ar⟩ := u
    obtain ⟨st', br⟩ := u'
    obtain ⟨hst, hb⟩ := hu
    simp only at hst
    subst hst
    exact hm.setBody hb st
  · exact .outcome hm h

theorem callhdr_alike (hR : Parallel op R) (h : R X Y) {m : RpcMsg σ α} {m' : RpcMsg τ β} (hm : SameMsg R T m m') :
    Alike (Outcomes (SameMsg R T) R) (flexxdrCallhdr X m) (flexxdrCallhdr Y m') := by
  have hc : SameMsg R T (callhdrMsg m) (callhdrMsg m') := (hm.setRmDirection _).setCbRpcvers _
  unfold flexxdrCallhdr
  rw [hR.left X Y h, hR.right X Y h]
  split
  · unfold callhdrFields
    rw [hc.rmXid]
    refine ((uLong_alike hR h _).onField fun v w hv => hv ▸ hc.setRmXid v).andThen fun X Y m m' h hm => ?_
    rw [hm.rmDirection]
    refine ((enum_alike hR h _).onField fun v w hv => hv ▸ hm.setRmDirection v).andThen fun X Y m m' h hm => ?_
    rw [show m.cbRpcvers = m'.cbRpcvers from hm.rpHead]
    refine ((uLong_alike hR h _).onField fun v w hv => hv ▸ hm.setCbRpcvers v).andThen fun X Y m m' h hm => ?_
    rw [hm.cbProg]
    refine ((uLong_alike hR h _).onField fun v w hv => hv ▸ hm.setCbProg v).andThen fun X Y m m' h hm => ?_
    rw [hm.cbVers]
    exact (uLong_alike hR h _).onField fun v w hv => hv ▸ hm.setCbVers v
  · exact .outcome hc h

end Records

end Cornflakes.Flexrpc

import Cornflakes.Parallel
import Cornflakes.Deserialize
import Cornflakes.Flexrpc.RecOps

/-!
# Messages over a record stream

A receiver of records calls `flexxdrrec_skiprecord` before every message. What it deserialises then is what it would
deserialise from memory, however the records are cut into fragments of words (`records_same`); but a call stops it, as
`flexxdr_callmsg` finds no `f_inline`.
-/

set_option autoImplicit false

namespace Cornflakes

open Wire Flexrpc

variable {ρ ω α β : Type}

/-! ## One message -/

section One

variable {T : Transport ρ ω} {old : Nat → Byte} {e : ρ} {w : List Byte} {n : Nat} {U : α → β → Prop}
  {X : Flexxdr FlexxdrMem} {Y : Flexxdr (RecStrm ρ ω)} {cf : Cflake FlexxdrMem α} {cf' : Cflake (RecStrm ρ ω) β}

/-- The message is a call. -/
def IsCall (ws : List Word) : Prop := ∃ xid rest, ws = xid :: MsgType.call :: rest

instance (ws : List Word) : Decidable (IsCall ws) :=
  match ws with
  | [] => isFalse fun ⟨_, _, h⟩ => by cases h
  | [_] => isFalse fun ⟨_, _, h⟩ => by cases h
  | xid :: d :: rest =>
    if h : d = MsgType.call then isTrue ⟨xid, rest, by rw [h]⟩
    else isFalse fun ⟨_, _, he⟩ => h (by cases he; rfl)

/-- The direction that is peeked at is the second word. -/
theorem peek_direction {c : MemCursor} {ws : List Word} (ha : c.ahead = words ws) {cf₁ : Cflake FlexxdrMem α}
    (h : cornflakePeekHeader (memStrm .decode c) cf = .ok (true, cf₁, X)) :
    cf₁.msg.rmDirection = MsgType.call ↔ IsCall ws := by
  match ws with
  | [] =>
    obtain ⟨cf', c', -, hp⟩ := peek_short cf (show c.room < 8 by rw [Cursor.room, ha]; simp)
    rw [hp] at h
    cases h
  | [_] =>
    obtain ⟨cf', c', -, hp⟩ := peek_short cf (show c.room < 8 by rw [Cursor.room, ha]; simp)
    rw [hp] at h
    cases h
  | xid :: d :: rest =>
    rw [peek_decode (show c.ahead = words [xid, d] ++ words rest by rw [ha, ← words_append]; rfl)] at h
    cases h
    show d = MsgType.call ↔ _
    constructor
    · rintro rfl
      exact ⟨xid, rest, rfl⟩
    · rintro ⟨_, _, he⟩
      cases he
      rfl

/-- A call stops the receiver. -/
theorem deserialize_rec_call (hx : T.Exact) (B : Registry (RecStrm ρ ω) β) {c : MemCursor} {ws : List Word}
    (ha : c.ahead = words ws) (h : Delivering T old e w n (memStrm .decode c) Y)
    (hcf : SameCflake (Delivering T old e w n) U cf cf') (hc : IsCall ws) :
    cornflakeDeserialize B Y cf' = .error .nullOp := by
  obtain ⟨xid, rest, rfl⟩ := hc
  have hw : c.ahead = words [xid, MsgType.call] ++ words rest := by
    rw [ha, ← words_append]
    rfl
  have hp : cornflakePeekHeader (memStrm .decode c) cf = _ := peek_decode hw
  obtain ⟨⟨b, cf₁, Y₁⟩, hp', hb, hcf₁, h₁⟩ := (peek_alike (delivering_parallel hx) h hcf).exists_ok hp
  simp only at hb hcf₁ h₁
  subst hb
  obtain ⟨-, s, -, -, -, rfl, -⟩ := h₁
  have hd : cf₁.msg.rmDirection = MsgType.call := hcf₁.msg.rmDirection.symm
  rw [cornflakeDeserialize, hp', andThen_true, if_pos hd, selectSchema, callmsg_rec T old FlexxdrOp.noConfusion s]
  rfl

/-- Everything else is deserialised as from memory. -/
theorem deserialize_rec_other (hx : T.Exact) (A : Registry FlexxdrMem α) (B : Registry (RecStrm ρ ω) β) {c : MemCursor}
    {ws : List Word} (ha : c.ahead = words ws) (h : Delivering T old e w n (memStrm .decode c) Y)
    (hcf : SameCflake (Delivering T old e w n) U cf cf') (hc : ¬ IsCall ws) :
    Alike (Outcomes (SameCflake (Delivering T old e w n) U) (Delivering T old e w n))
      (cornflakeDeserialize A (memStrm .decode c) cf) (cornflakeDeserialize B Y cf') :=
  deserialize_alike_reply (delivering_parallel hx) h hcf fun _ _ hp hd => hc ((peek_direction ha hp).mp hd)

end One

/-! ## A sequence of records -/

/-- Skip to a record and deserialise the message in it, again and again. It is `none` when a skip does not return. -/
def receiveRecords (fuel : Nat) (T : Transport ρ ω) (old : Nat → Byte) (B : Registry (RecStrm ρ ω) β) :
    RecStrm ρ ω → List (Cflake (RecStrm ρ ω) β) → Option (Except Fault (List (Bool × Cflake (RecStrm ρ ω) β)))
  | _, [] => some (.ok [])
  | s, cf :: cfs =>
    (flexxdrrecSkiprecord T s fuel).bind fun r =>
      match cornflakeDeserialize B (recStrm T old .decode r.2) cf with
      | .error f => some (.error f)
      | .ok (b, cf, Y) => (receiveRecords fuel T old B Y.strm cfs).map fun rest => rest.map ((b, cf) :: ·)

/-- The same record for the one stream and for the other: the same fields, places that hold the same, related results
behind them and related arguments. -/
def SameRecord (T : Transport ρ ω) (old : Nat → Byte) (U : α → β → Prop) (cf : Cflake FlexxdrMem α)
    (cf' : Cflake (RecStrm ρ ω) β) : Prop :=
  ∃ e w n, SameCflake (Delivering T old e w n) U cf cf'

/-- A record with a message in words, and the records of the receiver, for the one stream and for the other. -/
structure RecordMessage (T : Transport ρ ω) (old : Nat → Byte) (U : α → β → Prop) where
  frags : List (List Word)
  into : Cflake FlexxdrMem α
  intoRec : Cflake (RecStrm ρ ω) β
  sound : (⟨frags, 0⟩ : Visit).Sound
  small : 4 * frags.flatten.length < 2 ^ 32
  same : ∀ e w n, SameCflake (Delivering T old e w n) U into intoRec

namespace RecordMessage

variable {T : Transport ρ ω} {old : Nat → Byte} {U : α → β → Prop} (m : RecordMessage T old U)

/-- The bytes of the record. -/
def wire : List Byte := record (m.frags.map words)

/-- A call stops the receiver; everything else is received as from a buffer with the words of the record. -/
def fromMemory (A : Registry FlexxdrMem α) : Except Fault (Bool × Cflake FlexxdrMem α) :=
  if IsCall m.frags.flatten then .error .nullOp
  else do
    let buf := words m.frags.flatten
    let (b, cf, _) ← cornflakeDeserialize A (flexxdrmemCreate buf (.ofNat 32 buf.length) .decode) m.into
    return (b, cf)

/-- The buffer, as a place. -/
def place : MemCursor := .ofBuffer (words m.frags.flatten) (by rw [length_words]; exact m.small)

theorem fromMemory_eq (A : Registry FlexxdrMem α) : m.fromMemory A =
    if IsCall m.frags.flatten then .error .nullOp
    else cornflakeDeserialize A (memStrm .decode m.place) m.into >>= fun o => .ok (o.1, o.2.1) := by
  unfold fromMemory
  split
  · rfl
  · show cornflakeDeserialize A (flexxdrmemCreate _ _ _) _ >>= _ = _
    rw [create_eq_memStrm .decode (words m.frags.flatten) (by rw [length_words]; exact m.small)]
    rfl

/-- One record after it was opened. -/
theorem received (hx : T.Exact) (A : Registry FlexxdrMem α) (B : Registry (RecStrm ρ ω) β) {e : ρ} {w : List Byte}
    {s : RecStrm ρ ω} (hs : Placed s) (ho : Inlet.Opened T e s.inlet (m.wire ++ w)) :
    Alike (fun o o' => o.1 = o'.1 ∧ SameRecord T old U o.2 o'.2.1 ∧
        ∃ s' cw lw, o'.2.2 = recStrm T old .decode s' ∧ Placed s' ∧ Inlet.AtWord T e s'.inlet cw lw w ∧
          lw.length ≤ m.frags.length)
      (m.fromMemory A) (cornflakeDeserialize B (recStrm T old .decode s) m.intoRec) := by
  have hD : Delivering T old e w m.frags.length (memStrm .decode m.place) (recStrm T old .decode s) :=
    ⟨m.place, s, [], m.frags, rfl, rfl, hs, ho.at_word m.sound.ne_nil m.sound.sendable, Nat.le_refl _, rfl⟩
  rw [fromMemory_eq]
  by_cases hc : IsCall m.frags.flatten
  · rw [if_pos hc, deserialize_rec_call hx B rfl hD (m.same e w _) hc]
    exact .error _
  · rw [if_neg hc]
    have h := deserialize_rec_other hx A B rfl hD (m.same e w _) hc
    generalize cornflakeDeserialize A (memStrm .decode m.place) m.into = r at h ⊢
    generalize cornflakeDeserialize B (recStrm T old .decode s) m.intoRec = r' at h ⊢
    cases h with
    | error f => exact .error f
    | ok ho =>
      obtain ⟨hb, hcf, c, s', cw, lw, -, hY, hs', hat, hn, -⟩ := ho
      exact .ok ⟨hb, ⟨e, w, _, hcf⟩, s', cw, lw, hY, hs', hat, hn⟩

end RecordMessage

section Sequence

variable {T : Transport ρ ω} {old : Nat → Byte} {U : α → β → Prop} {e : ρ} {fuel : Nat}

/-- From any place of a record on. -/
theorem records_at (hx : T.Exact) (A : Registry FlexxdrMem α) (B : Registry (RecStrm ρ ω) β)
    {ms : List (RecordMessage T old U)} (hf : ∀ m ∈ ms, m.frags.length + 2 ≤ fuel) {s : RecStrm ρ ω} (hs : Placed s)
    {cw : List Word} {lw : List (List Word)} (hl : lw.length + 2 ≤ fuel)
    (h : Inlet.AtWord T e s.inlet cw lw (ms.flatMap RecordMessage.wire)) :
    ∃ r, receiveRecords fuel T old B s (ms.map RecordMessage.intoRec) = some r ∧
      Alike (List.Forall₂ fun o o' => o.1 = o'.1 ∧ SameRecord T old U o.2 o'.2) (ms.mapM fun m => m.fromMemory A) r := by
  induction ms generalizing s cw lw with
  | nil => exact ⟨.ok [], rfl, .ok .nil⟩
  | cons m ms ih =>
    obtain ⟨v', hk, ho⟩ := Inlet.skiprecord_at hx h hl
    obtain ⟨hi, hp⟩ := hs.skiprecord (T := T) fuel
    rw [hk] at hi
    obtain ⟨⟨ok, s₁⟩, hs₁, he⟩ := Option.map_eq_some_iff.mp hi.symm
    cases he
    have hrec := m.received hx A B (hp _ hs₁) ho
    rw [List.map_cons, receiveRecords, hs₁, Option.bind_some, List.mapM_cons]
    dsimp only
    generalize m.fromMemory A = q at hrec ⊢
    generalize cornflakeDeserialize B (recStrm T old .decode s₁) m.intoRec = q' at hrec ⊢
    cases hrec with
    | error f => exact ⟨.error f, rfl, .error f⟩
    | @ok o o' hoo =>
      obtain ⟨b, cf⟩ := o
      obtain ⟨b', cf', Y⟩ := o'
      obtain ⟨hb, hcf, s', cw', lw', rfl, hs', hat, hn⟩ := hoo
      have hm := hf m List.mem_cons_self
      obtain ⟨r, hr, ha⟩ := ih (fun m' hm' => hf m' (List.mem_cons_of_mem m hm')) hs' (by omega) hat
      refine ⟨r.map ((b', cf') :: ·), ?_, ?_⟩
      · show Option.map _ (receiveRecords fuel T old B s' _) = _
        rw [hr]
        rfl
      · generalize ms.mapM (fun m => m.fromMemory A) = t at ha ⊢
        cases ha with
        | error f => exact .error f
        | ok ht => exact .ok (.cons ⟨hb, hcf⟩ ht)

/-- **Messages are received from records as from memory, however these are cut into fragments of words, up to the first
call.** -/
theorem records_same (T : Transport ρ ω) (hx : T.Exact) (old : Nat → Byte) (U : α → β → Prop)
    (A : Registry FlexxdrMem α) (B : Registry (RecStrm ρ ω) β) (sendsize recvsize : Word) (buf : Int) (mem : Heap Byte)
    (reader : ρ) (writer : ω) (locals : Nat → Word) (ms : List (RecordMessage T old U)) (k : Nat)
    (hw : T.supply reader k = ms.flatMap RecordMessage.wire) :
    ∃ n, ∀ fuel, n ≤ fuel → ∃ r,
      receiveRecords fuel T old B (flexxdrrecCreate sendsize recvsize buf mem reader writer locals)
        (ms.map RecordMessage.intoRec) = some r ∧
      Alike (List.Forall₂ fun o o' => o.1 = o'.1 ∧ SameRecord T old U o.2 o'.2) (ms.mapM fun m => m.fromMemory A) r := by
  refine ⟨(ms.map fun m => m.frags.length).sum + 2, fun fuel hn => ?_⟩
  have hp := Placed.create sendsize recvsize buf mem reader writer locals
  have hf : ∀ m ∈ ms, m.frags.length + 2 ≤ fuel := by
    intro m hmem
    have hle := List.single_le_sum (fun _ _ => Nat.zero_le _) _ (List.mem_map_of_mem (f := fun m => m.frags.length) hmem)
    omega
  have hat : Inlet.AtWord T (T.after reader k)
      (flexxdrrecCreate sendsize recvsize buf mem reader writer locals).inlet [] [] (ms.flatMap RecordMessage.wire) := by
    refine ⟨⟨(fun p hp => by cases hp), (fun p hp => by cases hp)⟩, 0, rfl, hp.sound, ?_, rfl, rfl, k, ?_, rfl⟩
    · rw [create_unread]
    · rw [create_window, ← hw]
      rfl
  exact records_at hx A B hf hp (Nat.le_trans (Nat.le_add_left 2 _) hn) hat

end Sequence

/-- A schema of one number. -/
def numberSchema (σ : Type) : FlexxdrProc σ Word := { addr := 4096, code := flexxdrUInt }

/-- A record for a reply whose results are a number. -/
def numberReply (σ : Type) : Cflake σ Word :=
  ⟨⟨0, 0, 0, ⟨0, .ptr 8192 0, .proc (numberSchema σ)⟩⟩, 0⟩

theorem sameCflake_numberReply (T : Transport ρ ω) (hx : T.Exact) (old : Nat → Byte) (e : ρ) (w : List Byte) (n : Nat) :
    SameCflake (Delivering T old e w n) Eq (numberReply FlexxdrMem) (numberReply (RecStrm ρ ω)) := by
  refine ⟨⟨rfl, rfl, rfl, rfl, .ptr 8192 rfl, .proc ⟨rfl, fun X Y a b h hab => ?_, fun _ _ _ _ => .error _⟩⟩, rfl⟩
  subst hab
  exact uInt_alike (delivering_parallel hx) h a

/-- Two replies with a number, cut in different places. -/
def twoRecords (old : Nat → Byte) : List (RecordMessage (α := Word) (β := Word) flow old Eq) :=
  [⟨[[7, MsgType.reply, 0], [0, 42]], _, _, ⟨by simp, by simp, by simp⟩, by decide,
      fun e w n => sameCflake_numberReply flow flow_exact old e w n⟩,
    ⟨[[8], [MsgType.reply, 0, 0, 43]], _, _, ⟨by simp, by simp, by simp⟩, by decide,
      fun e w n => sameCflake_numberReply flow flow_exact old e w n⟩]

theorem records_same_twoRecords : ∃ n, ∀ fuel, n ≤ fuel → ∃ r,
    receiveRecords fuel flow (fun _ => 0) (registerAll [])
      (flexxdrrecCreate 0 0 0 (fun _ => 0) ((twoRecords fun _ => 0).flatMap RecordMessage.wire ++ₛ Stream'.const 0) ()
        fun _ => 0) ((twoRecords fun _ => 0).map RecordMessage.intoRec) = some r ∧
    Alike (List.Forall₂ fun o o' => o.1 = o'.1 ∧ SameRecord flow (fun _ => 0) Eq o.2 o'.2)
      ((twoRecords fun _ => 0).mapM fun m => m.fromMemory (registerAll [])) r :=
  records_same flow flow_exact (fun _ => 0) Eq (registerAll []) (registerAll []) 0 0 0 (fun _ => 0) _ ()
    (fun _ => 0) (twoRecords fun _ => 0) 14 (flow_whole _ rfl)

end Cornflakes

import Cornflakes.Serialize
import Cornflakes.Deserialize

/-!
# Calls through a schema that is not there

Neither function looks at what `cornflake_get_schema` returns before it calls it. After any registrations
(`neverCallsAbsent_iff`), sending avoids the call through NULL exactly when it stops before it or the key of the message
finds a schema (`sendsNoAbsent_iff`), and receiving exactly when the key that is looked up for a call finds one
(`receivesNoAbsent_iff`): the key on the wire for a good header, the key that the record had before for a bad one.
-/

set_option autoImplicit false

namespace Cornflakes

open Wire Flexrpc

variable {α : Type}

/-! ## Sending -/

section Sending

variable (es : List (CfRegistry FlexxdrMem α)) (c : MemCursor) (cf : Cflake FlexxdrMem α)

/-- Sending calls no absent schema, and a call whose key was never registered is refused. -/
structure SendsNoAbsent : Prop where
  safe : cornflakeSerialize (registerAll es) (memStrm .encode c) cf ≠ .error .absentSchema
  refuses : (∀ e ∈ es, e.key ≠ (cf.msg.cbProg, cf.msg.cbVers, cf.msg.cbProc)) →
    Returns (cornflakeSerialize (registerAll es) (memStrm .encode c) cf) false

/-- Wherever the header is written the key finds a schema, or it was registered and the procedure word has no room. -/
def SendResolves : Prop :=
  cf.msg.HeaderFits → 20 ≤ c.room →
    cornflakeGetSchema (registerAll es) cf.msg.cbProg cf.msg.cbVers cf.msg.cbProc MsgType.call ≠ none ∨
      c.room < 24 ∧ ∃ e ∈ es, e.key = (cf.msg.cbProg, cf.msg.cbVers, cf.msg.cbProc)

variable {es c cf}

theorem sendsNoAbsent_refused (hd : cf.msg.rmDirection = MsgType.call) (h : cf.msg.HeaderFits → c.room < 20) :
    SendsNoAbsent es c cf := by
  obtain ⟨c', hs⟩ := serialize_refused (R := registerAll es) hd h
  refine ⟨?_, fun _ => ⟨_, _, hs⟩⟩
  rw [hs]
  intro he
  cases he

/-- With room for six words and an absent schema the function calls it. -/
theorem serialize_absent {R : Registry FlexxdrMem α} (hd : cf.msg.rmDirection = MsgType.call) (hf : cf.msg.HeaderFits)
    (h : 24 ≤ c.room)
    (hn : cornflakeGetSchema R cf.msg.cbProg cf.msg.cbVers cf.msg.cbProc MsgType.call = none) :
    cornflakeSerialize R (memStrm .encode c) cf = .error .absentSchema := by
  rw [serialize_whole hd hf h, hn]
  rfl

theorem serialize_safe {R : Registry FlexxdrMem α} (hd : cf.msg.rmDirection = MsgType.call) (hf : cf.msg.HeaderFits)
    (h : 24 ≤ c.room)
    (hn : cornflakeGetSchema R cf.msg.cbProg cf.msg.cbVers cf.msg.cbProc MsgType.call ≠ none) :
    cornflakeSerialize R (memStrm .encode c) cf ≠ .error .absentSchema := by
  obtain ⟨s, hs⟩ := Option.ne_none_iff_exists'.mp hn
  rw [serialize_whole hd hf h, hs]
  intro he
  rcases Raises.bind (callProc_raises s _ cf.args) (fun _ => Raises.ok _) _ he with hf | ⟨g, hf⟩
  · cases hf
  · cases hf

theorem sendsNoAbsent_iff (hd : cf.msg.rmDirection = MsgType.call) :
    SendsNoAbsent es c cf ↔ SendResolves es c cf := by
  constructor
  · intro hs hf h20
    by_cases hn : cornflakeGetSchema (registerAll es) cf.msg.cbProg cf.msg.cbVers cf.msg.cbProc MsgType.call = none
    · by_cases h24 : 24 ≤ c.room
      · exact absurd (serialize_absent hd hf h24 hn) hs.safe
      · -- The result is TRUE, so the key was registered: its node is one that no lookup reaches.
        refine Or.inr ⟨by omega, ?_⟩
        by_contra hk
        have hr := hs.refuses fun e he hke => hk ⟨e, he, hke⟩
        rw [serialize_cut hd hf h20 (by omega), returns_ok] at hr
        cases hr
    · exact Or.inl hn
  · intro hcond
    by_cases hfr : cf.msg.HeaderFits ∧ 20 ≤ c.room
    · obtain ⟨hf, h20⟩ := hfr
      have hreg : ∃ e ∈ es, e.key = (cf.msg.cbProg, cf.msg.cbVers, cf.msg.cbProc) := by
        rcases hcond hf h20 with hn | ⟨-, hk⟩
        · exact registered_of_getSchema hn
        · exact hk
      refine ⟨?_, ?_⟩
      · by_cases h24 : 24 ≤ c.room
        · exact serialize_safe hd hf h24 ((hcond hf h20).resolve_right fun h => absurd h.1 (by omega))
        · rw [serialize_cut hd hf h20 (by omega)]
          intro he
          cases he
      · intro hno
        obtain ⟨e, he, hk⟩ := hreg
        exact absurd hk (hno e he)
    · exact sendsNoAbsent_refused hd fun hf => by by_contra h; exact hfr ⟨hf, by omega⟩

end Sending

/-! ## Receiving -/

section Receiving

variable (es : List (CfRegistry FlexxdrMem α)) (c : MemCursor) (cf : Cflake FlexxdrMem α)

/-- Receiving calls no absent schema, and a call whose key was never registered is refused. -/
structure ReceivesNoAbsent : Prop where
  safe : cornflakeDeserialize (registerAll es) (memStrm .decode c) cf ≠ .error .absentSchema
  refuses : ∀ xid prog vers proc rest, c.ahead = words [xid, MsgType.call, 8, prog, vers, proc] ++ rest →
    (∀ e ∈ es, e.key ≠ (prog.setWidth 64, vers.setWidth 64, proc.setWidth 64)) →
    Returns (cornflakeDeserialize (registerAll es) (memStrm .decode c) cf) false

/-- The key that is looked up for a call finds a schema. -/
def ReceiveResolves : Prop :=
  ∀ xid rest, c.ahead = words [xid, MsgType.call] ++ rest →
    (∀ prog vers proc r, rest = words (callWords prog vers proc) ++ r →
      wireSchema (registerAll es) prog vers proc ≠ none) ∧
    (¬ GoodCall rest → staleSchema (registerAll es) cf.msg rest ≠ none)

variable {es c cf}

/-- Once a schema was selected, no absent one is called. -/
theorem deserialize_safe {R : Registry FlexxdrMem α} {xid : Word} {rest : List Byte}
    (h : c.ahead = words [xid, MsgType.call] ++ rest) {s : FlexxdrProc FlexxdrMem α} {cf' : Cflake FlexxdrMem α}
    {X : Flexxdr FlexxdrMem}
    (hs : selectSchema R (memStrm .decode (c.advance 8)) (headed cf xid MsgType.call) = .ok (some s, cf', X)) :
    cornflakeDeserialize R (memStrm .decode c) cf ≠ .error .absentSchema := by
  rw [deserialize_call _ _ h, hs, ok_bind]
  have hc : Raises (· ≠ Fault.absentSchema) (callProc (some s) X cf'.args) := by
    refine (callProc_raises s X cf'.args).weaken ?_
    rintro f (rfl | ⟨g, rfl⟩) <;> simp
  have hr : Raises (· ≠ Fault.absentSchema)
      (andThen (onField (callProc (some s) X cf'.args) cf'.setArgs) deserializeReply) := by
    refine (hc.onField _).andThen fun X cf => ?_
    unfold deserializeReply
    split
    · exact (replymsg_raises X cf.msg).onField _
    · exact Raises.ok _
  exact fun he => hr _ he rfl

theorem receivesNoAbsent_short (h : c.room < 8) : ReceivesNoAbsent es c cf := by
  obtain ⟨cf', c', -, hs⟩ := deserialize_short (registerAll es) cf h
  refine ⟨?_, fun _ _ _ _ _ _ _ => ⟨_, _, hs⟩⟩
  rw [hs]
  intro he
  cases he

theorem receivesNoAbsent_other {xid d : Word} {rest : List Byte} (h : c.ahead = words [xid, d] ++ rest)
    (hd : d ≠ MsgType.call) : ReceivesNoAbsent es c cf := by
  refine ⟨?_, ?_⟩
  · rw [deserialize_other h hd]
    unfold deserializeReply
    split
    · exact fun he => ((replymsg_raises _ _).onField _) _ he rfl
    · exact fun he => by cases he
  · intro xid' prog vers proc rest' h'
    rw [words_call] at h'
    obtain ⟨-, rfl, -⟩ := two_words_inj (h.symm.trans h')
    exact absurd rfl hd

theorem receivesNoAbsent_iff : ReceivesNoAbsent es c cf ↔ ReceiveResolves es c cf := by
  constructor
  · intro hr xid rest h
    refine ⟨?_, ?_⟩
    · rintro prog vers proc r rfl hn
      apply hr.safe
      rw [deserialize_call _ _ h, select_good h, ok_bind, hn]
      rfl
    · intro hg hn
      apply hr.safe
      rw [deserialize_call _ _ h, select_stale h hg, ok_bind, hn]
      rfl
  · intro hcond
    rcases two_words_cases c.ahead with hs | ⟨xid, d, rest, h⟩
    · exact receivesNoAbsent_short hs
    · by_cases hd : d = MsgType.call
      · subst hd
        obtain ⟨hgood, hstale⟩ := hcond xid rest h
        refine ⟨?_, ?_⟩
        · by_cases hg : GoodCall rest
          · obtain ⟨prog, vers, proc, r, rfl⟩ := hg
            obtain ⟨s, hs⟩ := Option.ne_none_iff_exists'.mp (hgood prog vers proc r rfl)
            exact deserialize_safe h (by rw [select_good h, hs])
          · obtain ⟨s, hs⟩ := Option.ne_none_iff_exists'.mp (hstale hg)
            exact deserialize_safe h (by rw [select_stale h hg, hs])
        · intro xid' prog vers proc r h' hno
          rw [words_call] at h'
          obtain ⟨-, -, hr⟩ := two_words_inj (h.symm.trans h')
          obtain ⟨e, he, hk⟩ := registered_of_getSchema (hgood prog vers proc r hr)
          exact absurd hk (hno e he)
      · exact receivesNoAbsent_other h hd

end Receiving

/-- **No absent schema is called, and unregistered calls are refused, if and only if every lookup that is reached finds
a schema.** -/
theorem neverCallsAbsent_iff (es : List (CfRegistry FlexxdrMem α)) (c c' : MemCursor) (cf cf' : Cflake FlexxdrMem α)
    (hd : cf.msg.rmDirection = MsgType.call) :
    SendsNoAbsent es c cf ∧ ReceivesNoAbsent es c' cf' ↔ SendResolves es c cf ∧ ReceiveResolves es c' cf' :=
  and_congr (sendsNoAbsent_iff hd) receivesNoAbsent_iff

/-- One service, with a schema for its calls. -/
def oneService : List (CfRegistry FlexxdrMem Unit) := [⟨1, 1, 1, some (voidProc 4096), none, 0⟩]

/-- A call of this service is sent into room for six words, and received whole. -/
theorem neverCallsAbsent_iff_oneService :
    SendsNoAbsent oneService (.ofBuffer (List.replicate 24 0) (by decide)) ⟨callOf 1, ()⟩ ∧
      ReceivesNoAbsent oneService (.ofBuffer (words [7, MsgType.call, 8, 1, 1, 1]) (by decide)) ⟨RpcMsg.zeros, ()⟩ := by
  refine (neverCallsAbsent_iff oneService _ _ _ _ rfl).mpr ⟨fun _ _ => Or.inl ?_, fun xid rest h => ?_⟩
  · rw [oneService, getSchema_registerAll (by simp)]
    rw [if_pos (by simp [CfRegistry.key, callOf])]
    simp [CfRegistry.schema]
  · have ha : (MemCursor.ofBuffer (words [7, MsgType.call, 8, 1, 1, 1]) (by decide)).ahead =
        words [7, MsgType.call] ++ (words (callWords 1 1 1) ++ []) := rfl
    obtain ⟨-, -, rfl⟩ := two_words_inj (h.symm.trans ha)
    refine ⟨fun prog vers proc r hw => ?_, fun hg => absurd ⟨1, 1, 1, [], rfl⟩ hg⟩
    obtain ⟨rfl, rfl, rfl, -⟩ := callWords_inj hw
    rw [wireSchema, oneService, getSchema_registerAll (by simp)]
    rw [if_pos (by simp [CfRegistry.key])]
    simp [CfRegistry.schema]

/-- With nothing registered both functions call through NULL. -/
theorem absent_schema_called :
    ¬ SendsNoAbsent [] (.ofBuffer (words [0, 0, 0, 0, 0, 0]) (by decide))
        ⟨(RpcMsg.zeros : RpcMsg FlexxdrMem Unit), ()⟩ ∧
      ¬ ReceivesNoAbsent [] (.ofBuffer (words [7, MsgType.call, 8, 1, 1, 1]) (by decide))
        ⟨(RpcMsg.zeros : RpcMsg FlexxdrMem Unit), ()⟩ := by
  refine ⟨fun hs => hs.safe ?_, fun hr => hr.safe ?_⟩
  · exact serialize_absent rfl ⟨by decide, by decide, by decide⟩ (by decide)
      (getSchema_headEmpty headEmpty_empty _ _ _ _)
  · have h : (MemCursor.ofBuffer (words [7, MsgType.call, 8, 1, 1, 1]) (by decide)).ahead =
        words [7, MsgType.call] ++ (words (callWords 1 1 1) ++ []) := rfl
    rw [deserialize_call _ _ h, select_good h]
    rfl

end Cornflakes

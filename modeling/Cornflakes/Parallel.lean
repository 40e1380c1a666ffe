import Cornflakes.Cornflake
import Cornflakes.Flexrpc.Parallel

/-!
# Messages on two kinds of streams

Two registries that were filled with procedures that do the same on connected handles (`SameRegistry`,
`same_registerAll`) find procedures that do the same (`getSchema_alike`). With them `cornflake_serialize` does the same on
connected handles (`serialize_alike`), and so does `cornflake_deserialize` where `flexxdr_callmsg` does
(`deserialize_alike`): its block is the one access to a stream that goes around the operations.
-/

set_option autoImplicit false

namespace Cornflakes

open Wire Flexrpc

variable {σ τ α β : Type}

/-! ## Registries -/

/-- The same key, and schemas that do the same. -/
structure SameEntry (R : Flexxdr σ → Flexxdr τ → Prop) (T : α → β → Prop) (e : CfRegistry σ α)
    (e' : CfRegistry τ β) : Prop where
  prog : e.prog = e'.prog
  vers : e.vers = e'.vers
  proc : e.proc = e'.proc
  cfCallSchema : Option.Rel (SameProc R T) e.cfCallSchema e'.cfCallSchema
  cfReplySchema : Option.Rel (SameProc R T) e.cfReplySchema e'.cfReplySchema

/-- The same nodes in the reach of lookups. -/
structure SameRegistry (R : Flexxdr σ → Flexxdr τ → Prop) (T : α → β → Prop) (A : Registry σ α) (B : Registry τ β) :
    Prop where
  rpcRegistry : SameEntry R T A.rpcRegistry B.rpcRegistry
  next : List.Forall₂ (SameEntry R T) A.next B.next

section Registries

variable {R : Flexxdr σ → Flexxdr τ → Prop} {T : α → β → Prop} {A : Registry σ α} {B : Registry τ β}

theorem same_empty : SameRegistry R T (Registry.empty : Registry σ α) (Registry.empty : Registry τ β) :=
  ⟨⟨rfl, rfl, rfl, .none, .none⟩, .nil⟩

theorem same_register (h : SameRegistry R T A B) {e : CfRegistry σ α} {e' : CfRegistry τ β} (he : SameEntry R T e e') :
    SameRegistry R T (A.register e) (B.register e') := by
  have hv := h.rpcRegistry.vers
  by_cases hA : A.headEmpty
  · have hB : B.headEmpty := hv.symm.trans hA
    rw [register_empty hA, register_empty hB]
    exact ⟨he, h.next⟩
  · have hB : ¬ B.headEmpty := fun hB => hA (hv.trans hB)
    rw [register_taken hA, register_taken hB]
    exact ⟨h.rpcRegistry, h.next⟩

/-- Registries that were filled alike. -/
theorem same_registerAll {es : List (CfRegistry σ α)} {es' : List (CfRegistry τ β)}
    (h : List.Forall₂ (SameEntry R T) es es') : SameRegistry R T (registerAll es) (registerAll es') := by
  have hfold {A : Registry σ α} {B : Registry τ β} (hAB : SameRegistry R T A B) :
      SameRegistry R T (es.foldl Registry.register A) (es'.foldl Registry.register B) := by
    induction h generalizing A B with
    | nil => exact hAB
    | cons he _ ih => exact ih (same_register hAB he)
  exact hfold same_empty

theorem find_alike (prog vers proc : ULong) {e : CfRegistry σ α} {e' : CfRegistry τ β} (he : SameEntry R T e e')
    {es : List (CfRegistry σ α)} {es' : List (CfRegistry τ β)} (h : List.Forall₂ (SameEntry R T) es es') :
    Option.Rel (SameEntry R T) (cornflakeFind prog vers proc e es) (cornflakeFind prog vers proc e' es') := by
  induction h generalizing e e' with
  | nil =>
    unfold cornflakeFind
    rw [he.vers, he.prog, he.proc]
    split
    · exact .none
    · exact .some he
  | cons hd _ ih =>
    unfold cornflakeFind
    rw [he.vers, he.prog, he.proc]
    split
    · exact ih hd
    · exact .some he

theorem getSchema_alike (h : SameRegistry R T A B) (prog vers proc : ULong) (d : Word) :
    Option.Rel (SameProc R T) (cornflakeGetSchema A prog vers proc d) (cornflakeGetSchema B prog vers proc d) := by
  unfold cornflakeGetSchema
  rw [h.rpcRegistry.vers]
  split
  · exact .none
  · have hf := find_alike prog vers proc h.rpcRegistry h.next
    generalize cornflakeFind prog vers proc A.rpcRegistry A.next = p at hf ⊢
    generalize cornflakeFind prog vers proc B.rpcRegistry B.next = q at hf ⊢
    cases hf with
    | none => exact .none
    | some he =>
      dsimp only
      split
      · exact he.cfCallSchema
      · split
        · exact he.cfReplySchema
        · exact .none

end Registries

/-! ## Messages -/

structure SameCflake (R : Flexxdr σ → Flexxdr τ → Prop) (T : α → β → Prop) (cf : Cflake σ α) (cf' : Cflake τ β) :
    Prop where
  msg : SameMsg R T cf.msg cf'.msg
  args : T cf.args cf'.args

section Messages

variable {op : FlexxdrOp} {R : Flexxdr σ → Flexxdr τ → Prop} {T : α → β → Prop} {A : Registry σ α} {B : Registry τ β}
  {X : Flexxdr σ} {Y : Flexxdr τ} {cf : Cflake σ α} {cf' : Cflake τ β}

theorem peek_alike (hR : Parallel op R) (h : R X Y) (hcf : SameCflake R T cf cf') :
    Alike (Outcomes (SameCflake R T) R) (cornflakePeekHeader X cf) (cornflakePeekHeader Y cf') := by
  unfold cornflakePeekHeader
  rw [hcf.msg.rmXid]
  refine ((uLong_alike hR h _).onField fun v w hv => ?_).andThen fun X Y cf cf' h hcf => ?_
  · subst hv
    exact ⟨hcf.msg.setRmXid v, hcf.args⟩
  · rw [hcf.msg.rmDirection]
    refine (enum_alike hR h _).onField fun v w hv => ?_
    subst hv
    exact ⟨hcf.msg.setRmDirection v, hcf.args⟩

theorem reply_alike (hR : Parallel op R) (h : R X Y) (hcf : SameCflake R T cf cf') :
    Alike (Outcomes (SameCflake R T) R) (onField (flexxdrReplymsg X cf.msg) cf.setMsg)
      (onField (flexxdrReplymsg Y cf'.msg) cf'.setMsg) :=
  (replymsg_alike hR h hcf.msg).onField fun _ _ hm => ⟨hm, hcf.args⟩

theorem deserializeReply_alike (hR : Parallel op R) (h : R X Y) (hcf : SameCflake R T cf cf') :
    Alike (Outcomes (SameCflake R T) R) (deserializeReply X cf) (deserializeReply Y cf') := by
  unfold deserializeReply
  rw [hcf.msg.rmDirection]
  split
  · exact reply_alike hR h hcf
  · exact .outcome hcf h

/-- **Serialising does the same on connected handles.** -/
theorem serialize_alike (hR : Parallel .encode R) (hAB : SameRegistry R T A B) (h : R X Y) (hcf : SameCflake R T cf cf') :
    Alike (Outcomes (SameCflake R T) R) (cornflakeSerialize A X cf) (cornflakeSerialize B Y cf') := by
  unfold cornflakeSerialize
  rw [hcf.msg.rmDirection]
  split
  · refine ((callhdr_alike hR h hcf.msg).onField fun _ _ hm => ⟨hm, hcf.args⟩).andThen fun X Y cf cf' h hcf => ?_
    rw [hcf.msg.cbProg, hcf.msg.cbVers, hcf.msg.cbProc]
    refine (hR.putlong rfl X Y h _).bind ?_
    rintro ⟨ok, X₁⟩ ⟨ok', Y₁⟩ ⟨hb, h₁⟩
    simp only at hb h₁ ⊢
    subst hb
    split
    · exact .outcome hcf h₁
    · refine (callProc_alike (getSchema_alike hAB _ _ _ _) h₁ hcf.args).bind ?_
      rintro ⟨b, a, X₂⟩ ⟨b', a', Y₂⟩ ⟨-, ha, h₂⟩
      exact .outcome ⟨hcf.msg, ha⟩ h₂
  · split
    · refine (peek_alike hR h hcf).bind ?_
      rintro ⟨b, cf₁, X₁⟩ ⟨b', cf₁', Y₁⟩ ⟨-, hcf₁, h₁⟩
      exact reply_alike hR h₁ hcf₁
    · exact .outcome hcf h

/-- **So does deserialising, where `flexxdr_callmsg` does.** -/
theorem deserialize_alike (hR : Parallel .decode R) (hAB : SameRegistry R T A B)
    (hcall : ∀ X Y, R X Y → ∀ (m : RpcMsg σ α) (m' : RpcMsg τ β), SameMsg R T m m' →
      Alike (Outcomes (SameMsg R T) R) (flexxdrCallmsg X m) (flexxdrCallmsg Y m'))
    (h : R X Y) (hcf : SameCflake R T cf cf') :
    Alike (Outcomes (SameCflake R T) R) (cornflakeDeserialize A X cf) (cornflakeDeserialize B Y cf') := by
  unfold cornflakeDeserialize
  refine (peek_alike hR h hcf).andThen fun X Y cf cf' h hcf => ?_
  rw [hcf.msg.rmDirection]
  split
  · have hsel : Alike (fun o o' => Option.Rel (SameProc R T) o.1 o'.1 ∧ SameCflake R T o.2.1 o'.2.1 ∧ R o.2.2 o'.2.2)
        (selectSchema A X cf) (selectSchema B Y cf') := by
      refine (hcall X Y h _ _ hcf.msg).bind ?_
      rintro ⟨b, m, X₁⟩ ⟨b', m', Y₁⟩ ⟨-, hm, h₁⟩
      simp only at hm h₁ ⊢
      refine .ok ⟨?_, ⟨hm, hcf.args⟩, h₁⟩
      rw [hm.cbProg, hm.cbVers, hm.cbProc, hm.rmDirection]
      exact getSchema_alike hAB _ _ _ _
    refine hsel.bind ?_
    rintro ⟨s, cf₁, X₁⟩ ⟨s', cf₁', Y₁⟩ ⟨hs, hcf₁, h₁⟩
    simp only at hs hcf₁ h₁ ⊢
    exact ((callProc_alike hs h₁ hcf₁.args).onField fun a b ha => ⟨hcf₁.msg, ha⟩).andThen fun X Y cf cf' h hcf =>
      deserializeReply_alike hR h hcf
  · exact deserializeReply_alike hR h hcf

/-- A header that is no call's goes on to the reply on both. -/
theorem deserialize_alike_reply (hR : Parallel .decode R) (h : R X Y) (hcf : SameCflake R T cf cf')
    (hd : ∀ cf₁ X₁, cornflakePeekHeader X cf = .ok (true, cf₁, X₁) → cf₁.msg.rmDirection ≠ MsgType.call) :
    Alike (Outcomes (SameCflake R T) R) (cornflakeDeserialize A X cf) (cornflakeDeserialize B Y cf') := by
  have hp := peek_alike hR h hcf
  unfold cornflakeDeserialize
  generalize cornflakePeekHeader X cf = r at hp hd ⊢
  generalize cornflakePeekHeader Y cf' = r' at hp ⊢
  cases hp with
  | error f => exact .error f
  | @ok o o' ho =>
    obtain ⟨b, cf₁, X₁⟩ := o
    obtain ⟨b', cf₁', Y₁⟩ := o'
    obtain ⟨hb, hcf₁, h₁⟩ := ho
    simp only at hb hcf₁ h₁
    subst hb
    cases b with
    | false => exact .outcome hcf₁ h₁
    | true =>
      have hn := hd cf₁ X₁ rfl
      rw [andThen_true, andThen_true, if_neg hn, if_neg (by rw [← hcf₁.msg.rmDirection]; exact hn)]
      exact deserializeReply_alike hR h₁ hcf₁

end Messages

end Cornflakes

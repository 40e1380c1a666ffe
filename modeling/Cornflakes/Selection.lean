import Cornflakes.Deserialize

/-!
# The schema that `cornflake_deserialize` calls

`invocation` is the call through a schema of the registry that the function makes, if it makes one. What follows it is
`deserialize_invocation`, and without one no procedure of the registry has a part in the result
(`deserialize_no_invocation`); both are read off `invocation_cases`.

- `selectsByMessage_iff`: the function goes on from the call of a schema that is selected by the message alone
  (`SelectsByMessage`) if and only if the old record selects none for a bad call header.
-/

set_option autoImplicit false

namespace Cornflakes

open Wire Flexrpc

variable {α : Type}

/-- The call through a schema of the registry that `cornflake_deserialize` makes, if it makes one: the schema, the
handle that it is given, and the message then. -/
def invocation {σ : Type} (R : Registry σ α) (X : Flexxdr σ) (cf : Cflake σ α) :
    Except Fault (Option (FlexxdrProc σ α × Flexxdr σ × Cflake σ α)) := do
  let (status, cf, X) ← cornflakePeekHeader X cf
  if status ∧ cf.msg.rmDirection = MsgType.call then do
    let (schema, cf, X) ← selectSchema R X cf
    return schema.map fun s => (s, X, cf)
  else return none

/-- The function fails before it calls a schema, or calls none, or goes on from the call of one. -/
theorem invocation_cases {σ : Type} (R : Registry σ α) (X : Flexxdr σ) (cf : Cflake σ α) :
    (∃ f, invocation R X cf = .error f ∧ cornflakeDeserialize R X cf = .error f) ∨
    (invocation R X cf = .ok none ∧ (cornflakeDeserialize R X cf = .error .absentSchema ∨
      cornflakeDeserialize R X cf = andThen (cornflakePeekHeader X cf) deserializeReply)) ∨
    ∃ s X' cf', invocation R X cf = .ok (some (s, X', cf')) ∧ cornflakeDeserialize R X cf =
      andThen (onField (callProc (some s) X' cf'.args) cf'.setArgs) deserializeReply := by
  unfold invocation cornflakeDeserialize
  rcases hp : cornflakePeekHeader X cf with f | ⟨status, cf₁, X₁⟩
  · exact Or.inl ⟨f, rfl, rfl⟩
  · cases status with
    | false => exact Or.inr (Or.inl ⟨rfl, Or.inr rfl⟩)
    | true =>
      rw [ok_bind, andThen_true, andThen_true]
      by_cases hd : cf₁.msg.rmDirection = MsgType.call
      · simp only [hd, and_self, if_true]
        rcases hs : selectSchema R X₁ cf₁ with f | ⟨schema, cf₂, X₂⟩
        · exact Or.inl ⟨f, rfl, rfl⟩
        · cases schema with
          | none => exact Or.inr (Or.inl ⟨rfl, Or.inl rfl⟩)
          | some s => exact Or.inr (Or.inr ⟨s, X₂, cf₂, rfl, rfl⟩)
      · simp only [hd, and_false, if_false]
        exact Or.inr (Or.inl ⟨rfl, Or.inr trivial⟩)

/-- What the function does from the call of the schema on. -/
theorem deserialize_invocation {σ : Type} {R : Registry σ α} {X : Flexxdr σ} {cf : Cflake σ α} {s : FlexxdrProc σ α}
    {X' : Flexxdr σ} {cf' : Cflake σ α} (h : invocation R X cf = .ok (some (s, X', cf'))) :
    cornflakeDeserialize R X cf = andThen (onField (callProc (some s) X' cf'.args) cf'.setArgs) deserializeReply := by
  rcases invocation_cases R X cf with ⟨f, hi, -⟩ | ⟨hi, -⟩ | ⟨s', X'', cf'', hi, hd⟩
  · cases h.symm.trans hi
  · cases h.symm.trans hi
  · cases h.symm.trans hi
    exact hd

/-- Without one no procedure of the registry has a part in the result. -/
theorem deserialize_no_invocation {σ : Type} {R : Registry σ α} {X : Flexxdr σ} {cf : Cflake σ α}
    (h : invocation R X cf = .ok none) :
    cornflakeDeserialize R X cf = .error .absentSchema ∨
      cornflakeDeserialize R X cf = andThen (cornflakePeekHeader X cf) deserializeReply := by
  rcases invocation_cases R X cf with ⟨f, hi, -⟩ | ⟨-, hd⟩ | ⟨s', X'', cf'', hi, -⟩
  · cases h.symm.trans hi
  · exact hd
  · cases h.symm.trans hi

variable {R : Registry FlexxdrMem α} {c : MemCursor} {cf : Cflake FlexxdrMem α}

theorem invocation_call {xid : Word} {rest : List Byte} (h : c.ahead = words [xid, MsgType.call] ++ rest) :
    invocation R (memStrm .decode c) cf =
      (selectSchema R (memStrm .decode (c.advance 8)) (headed cf xid MsgType.call) >>= fun (schema, cf, X) =>
        .ok (schema.map fun s => (s, X, cf))) := by
  have hd : (headed cf xid MsgType.call).msg.rmDirection = MsgType.call := rfl
  simp only [invocation, peek_decode h, ok_bind, hd, and_self, if_true, pure_eq_ok]

theorem invocation_other {xid d : Word} {rest : List Byte} (h : c.ahead = words [xid, d] ++ rest)
    (hd : d ≠ MsgType.call) : invocation R (memStrm .decode c) cf = .ok none := by
  have hd' : (headed cf xid d).msg.rmDirection ≠ MsgType.call := hd
  simp only [invocation, peek_decode h, ok_bind, hd', and_false, if_false, pure_eq_ok]

theorem invocation_short (h : c.room < 8) : invocation R (memStrm .decode c) cf = .ok none := by
  obtain ⟨cf', c', -, hp⟩ := peek_short cf h
  simp only [invocation, hp, ok_bind, Bool.false_eq_true, false_and, if_false, pure_eq_ok]

/-- The function goes on from the call of a schema, and that is the one registered for the key on the wire, after a
whole call header; or no schema is called, and none has a part in what it does. -/
structure SelectsByMessage (R : Registry FlexxdrMem α) (c : MemCursor) (cf : Cflake FlexxdrMem α) : Prop where
  calls : ∀ s X cf', invocation R (memStrm .decode c) cf = .ok (some (s, X, cf')) →
    cornflakeDeserialize R (memStrm .decode c) cf =
        andThen (onField (callProc (some s) X cf'.args) cf'.setArgs) deserializeReply ∧
      ∃ xid prog vers proc rest, c.ahead = words [xid, MsgType.call, 8, prog, vers, proc] ++ rest ∧
        wireSchema R prog vers proc = some s ∧ X = memStrm .decode (c.advance 24)
  callsNone : invocation R (memStrm .decode c) cf = .ok none →
    cornflakeDeserialize R (memStrm .decode c) cf = .error .absentSchema ∨
      cornflakeDeserialize R (memStrm .decode c) cf =
        andThen (cornflakePeekHeader (memStrm .decode c) cf) deserializeReply

/-- Nothing is left to show where no schema is called. -/
theorem SelectsByMessage.of_none (h : invocation R (memStrm .decode c) cf = .ok none) : SelectsByMessage R c cf where
  calls s X cf' hi := by cases h.symm.trans hi
  callsNone := deserialize_no_invocation

theorem selectsByMessage_good {xid : Word} {rest : List Byte} (h : c.ahead = words [xid, MsgType.call] ++ rest)
    (hg : GoodCall rest) : SelectsByMessage R c cf := by
  obtain ⟨prog, vers, proc, r, rfl⟩ := hg
  refine ⟨fun s X cf' hi => ⟨deserialize_invocation hi, ?_⟩, deserialize_no_invocation⟩
  rw [invocation_call h, select_good h, ok_bind] at hi
  cases hs : wireSchema R prog vers proc with
  | none =>
    rw [hs] at hi
    cases hi
  | some s' =>
    rw [hs] at hi
    cases hi
    exact ⟨xid, prog, vers, proc, r, by rw [words_call, h], hs, rfl⟩

/-- **The schema that is called depends on the message alone if and only if a bad call header comes at a record whose
key selects none.** -/
theorem selectsByMessage_iff (R : Registry FlexxdrMem α) (c : MemCursor) (cf : Cflake FlexxdrMem α) :
    SelectsByMessage R c cf ↔ ∀ xid rest, c.ahead = words [xid, MsgType.call] ++ rest → ¬ GoodCall rest →
      staleSchema R cf.msg rest = none := by
  constructor
  · intro hsel xid rest h hg
    cases hs : staleSchema R cf.msg rest with
    | none => rfl
    | some s =>
      have hi : invocation R (memStrm .decode c) cf = .ok (some (s, memStrm .decode (staleLeft c cf xid).1,
          cf.setMsg (staleLeft c cf xid).2)) := by
        rw [invocation_call h, select_stale h hg, ok_bind, hs]
        rfl
      obtain ⟨-, xid', prog, vers, proc, r, ha, -, -⟩ := hsel.calls _ _ _ hi
      rw [words_call] at ha
      obtain ⟨-, -, rfl⟩ := two_words_inj (h.symm.trans ha)
      exact absurd ⟨prog, vers, proc, r, rfl⟩ hg
  · intro hcond
    rcases two_words_cases c.ahead with hs | ⟨xid, d, rest, h⟩
    · exact .of_none (invocation_short hs)
    · by_cases hd : d = MsgType.call
      · subst hd
        by_cases hg : GoodCall rest
        · exact selectsByMessage_good h hg
        · exact .of_none (by rw [invocation_call h, select_stale h hg, ok_bind, hcond xid rest h hg]; rfl)
      · exact .of_none (invocation_other h hd)

/-- A header that ends after the direction runs the schema of the call before it. -/
theorem selects_stale_schema :
    ¬ SelectsByMessage (registerAll [⟨1, 1, 1, some (voidProc 4096), none, 0⟩])
      (.ofBuffer (words [7, MsgType.call]) (by decide))
      ⟨(RpcMsg.zeros : RpcMsg FlexxdrMem Unit).setCall 1 1 1, ()⟩ := by
  intro hsel
  have h : (MemCursor.ofBuffer (words [7, MsgType.call]) (by decide)).ahead = words [7, MsgType.call] ++ [] := rfl
  have hg : ¬ GoodCall [] := by
    rintro ⟨prog, vers, proc, r, hw⟩
    cases hw
  obtain ⟨-, xid, prog, vers, proc, r, ha, -, -⟩ :=
    hsel.calls _ _ _ ((invocation_call h).trans (by rw [select_stale h hg]; rfl))
  have hl : (words [7, MsgType.call]).length = _ := congrArg List.length ha
  simp only [List.length_append, length_words, List.length_cons, List.length_nil] at hl
  omega

end Cornflakes

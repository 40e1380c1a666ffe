import Cornflakes.Deserialize

/-!
# The messages that `cornflake_deserialize` accepts

`WireGrammar` says which bytes are a message: a call whose registered schema accepts its arguments, or a reply whose
body is accepted. `BadHeader` says which cannot be one.

- `deserialize_good`: after a good call header the function accepts exactly the grammar;
- `deserialize_stale`: after a bad one it refuses exactly when what the old record selects does;
- `acceptsGrammar_iff`: the function accepts exactly the grammar and refuses bad headers, if and only if it is given no
  direction other than CALL and REPLY, and for a bad call header the old record selects a schema that refuses.
-/

set_option autoImplicit false

namespace Cornflakes

open Wire Flexrpc

variable {α : Type}

variable (R : Registry FlexxdrMem α) (c : MemCursor) (cf : Cflake FlexxdrMem α)

/-- The bytes ahead are a call whose registered schema accepts its arguments, or a reply whose body is accepted. -/
def WireGrammar : Prop :=
  (∃ xid prog vers proc rest s, c.ahead = words [xid, MsgType.call, 8, prog, vers, proc] ++ rest ∧
    wireSchema R prog vers proc = some s ∧ Returns (s.code (memStrm .decode (c.advance 24)) cf.args) true) ∨
  (∃ xid rest, c.ahead = words [xid, MsgType.reply] ++ rest ∧
    Returns (flexxdrReplymsg (memStrm .decode (c.advance 8)) (headed cf xid MsgType.reply).msg) true)

/-- Too short for a header, a direction that is neither CALL nor REPLY, or a call header cut short or of another
version. -/
def BadHeader (bs : List Byte) : Prop :=
  bs.length < 8 ∨ ∃ xid d rest, bs = words [xid, d] ++ rest ∧
    (d ≠ MsgType.call ∧ d ≠ MsgType.reply ∨ d = MsgType.call ∧ ¬ GoodCall rest)

/-- `cornflake_deserialize` accepts exactly the grammar, and what has a bad header it refuses. -/
structure AcceptsGrammar : Prop where
  accepts : Returns (cornflakeDeserialize R (memStrm .decode c) cf) true ↔ WireGrammar R c cf
  refuses : BadHeader c.ahead → Returns (cornflakeDeserialize R (memStrm .decode c) cf) false

/-- After a bad call header the function goes on with the schema `s` that the old record selects. It ends with FALSE if
`s` does, or if the direction was read again as REPLY and the rest is refused as a reply. -/
def StaleRefuses (xid : Word) (rest : List Byte) : Prop :=
  ∃ s, staleSchema R cf.msg rest = some s ∧
    (Returns (s.code (memStrm .decode (staleLeft c cf xid).1) cf.args) false ∨
      ∃ args X, s.code (memStrm .decode (staleLeft c cf xid).1) cf.args = .ok (true, args, X) ∧
        reread rest = MsgType.reply ∧ Returns (flexxdrReplymsg X (staleLeft c cf xid).2) false)

variable {R c cf}

theorem badHeader_iff {xid d : Word} {rest : List Byte} (h : c.ahead = words [xid, d] ++ rest) :
    BadHeader c.ahead ↔ d ≠ MsgType.call ∧ d ≠ MsgType.reply ∨ d = MsgType.call ∧ ¬ GoodCall rest := by
  constructor
  · rintro (hs | ⟨xid', d', rest', h', hb⟩)
    · rw [h, List.length_append, length_words] at hs
      simp only [List.length_cons, List.length_nil] at hs
      omega
    · obtain ⟨-, rfl, rfl⟩ := two_words_inj (h.symm.trans h')
      exact hb
  · intro hb
    exact Or.inr ⟨xid, d, rest, h, hb⟩

/-- What has a bad header is not in the grammar. -/
theorem not_wireGrammar_of_bad (h : BadHeader c.ahead) : ¬ WireGrammar R c cf := by
  rintro (⟨xid, prog, vers, proc, rest, s, ha, -, -⟩ | ⟨xid, rest, ha, -⟩)
  · rw [words_call] at ha
    rcases (badHeader_iff ha).mp h with ⟨hd, -⟩ | ⟨-, hg⟩
    · exact hd rfl
    · exact hg ⟨prog, vers, proc, rest, rfl⟩
  · rcases (badHeader_iff ha).mp h with ⟨-, hd⟩ | ⟨hd, -⟩
    · exact hd rfl
    · cases hd

theorem wireGrammar_reply {xid : Word} {rest : List Byte} (h : c.ahead = words [xid, MsgType.reply] ++ rest) :
    WireGrammar R c cf ↔
      Returns (flexxdrReplymsg (memStrm .decode (c.advance 8)) (headed cf xid MsgType.reply).msg) true := by
  constructor
  · rintro (⟨xid', prog, vers, proc, rest', s, ha, -, -⟩ | ⟨xid', rest', ha, hr⟩)
    · rw [words_call] at ha
      obtain ⟨-, hd, -⟩ := two_words_inj (h.symm.trans ha)
      cases hd
    · obtain ⟨rfl, -, -⟩ := two_words_inj (h.symm.trans ha)
      exact hr
  · intro hr
    exact Or.inr ⟨xid, rest, h, hr⟩

theorem wireGrammar_call {xid prog vers proc : Word} {rest : List Byte}
    (h : c.ahead = words [xid, MsgType.call] ++ (words (callWords prog vers proc) ++ rest)) :
    WireGrammar R c cf ↔ ∃ s, wireSchema R prog vers proc = some s ∧
      Returns (s.code (memStrm .decode (c.advance 24)) cf.args) true := by
  constructor
  · rintro (⟨xid', prog', vers', proc', rest', s, ha, hs, hr⟩ | ⟨xid', rest', ha, -⟩)
    · rw [words_call] at ha
      obtain ⟨-, -, hg⟩ := two_words_inj (h.symm.trans ha)
      obtain ⟨rfl, rfl, rfl, -⟩ := callWords_inj hg
      exact ⟨s, hs, hr⟩
    · obtain ⟨-, hd, -⟩ := two_words_inj (h.symm.trans ha)
      cases hd
  · rintro ⟨s, hs, hr⟩
    exact Or.inl ⟨xid, prog, vers, proc, rest, s, by rw [words_call, h], hs, hr⟩

/-- A good call is accepted exactly when the registered schema accepts its arguments. -/
theorem deserialize_good {xid prog vers proc : Word} {rest : List Byte}
    (h : c.ahead = words [xid, MsgType.call] ++ (words (callWords prog vers proc) ++ rest)) :
    Returns (cornflakeDeserialize R (memStrm .decode c) cf) true ↔ WireGrammar R c cf := by
  rw [wireGrammar_call h, deserialize_call R cf h, select_good h, ok_bind]
  cases hs : wireSchema R prog vers proc with
  | none =>
    refine iff_of_false (not_returns_error _ _) ?_
    rintro ⟨s, hs', -⟩
    cases hs'
  | some s =>
    have hf : (∃ s', some s = some s' ∧ Returns (s'.code (memStrm .decode (c.advance 24)) cf.args) true) ↔
        Returns (s.code (memStrm .decode (c.advance 24)) cf.args) true := by simp
    rw [hf, ← returns_callProc s]
    -- The direction is still CALL afterwards, so the reply branch is not taken.
    rcases hr : callProc (some s) (memStrm .decode (c.advance 24)) cf.args with f | ⟨ok, args, X⟩
    · simp only [Cflake.setMsg, hr]
      exact iff_of_false (not_returns_error f _) (not_returns_error f _)
    · simp only [Cflake.setMsg, hr, onField_ok]
      rw [returns_ok]
      cases ok with
      | false => rw [andThen_false, returns_ok]
      | true =>
        rw [andThen_true, deserializeReply_other (by intro e; cases e), returns_ok]

/-- A bad call header is refused exactly when the schema of the old key, or the reply after it, refuses. -/
theorem deserialize_stale {xid : Word} {rest : List Byte} (h : c.ahead = words [xid, MsgType.call] ++ rest)
    (hb : ¬ GoodCall rest) :
    Returns (cornflakeDeserialize R (memStrm .decode c) cf) false ↔ StaleRefuses R c cf xid rest := by
  rw [deserialize_call R cf h, select_stale h hb, ok_bind]
  unfold StaleRefuses
  cases hs : staleSchema R cf.msg rest with
  | none =>
    refine iff_of_false (not_returns_error _ _) ?_
    rintro ⟨s, hs', -⟩
    cases hs'
  | some s =>
    have hd : (staleLeft c cf xid).2.rmDirection = reread rest := by
      rw [← ahead_header h]
      exact rmDirection_callmsgLeft (c.advance 8) (headed cf xid MsgType.call).msg rfl
    simp only [Option.some.injEq, exists_eq_left', Cflake.setMsg]
    rcases hr : s.code (memStrm .decode (staleLeft c cf xid).1) cf.args with f | ⟨ok, args, X⟩
    · rw [callProc_some, hr]
      refine iff_of_false (not_returns_error _ _) ?_
      rintro (hf | ⟨args, X, hf, -⟩)
      · exact not_returns_error f _ hf
      · cases hf
    · rw [callProc_ok hr, onField_ok]
      cases ok with
      | false => exact iff_of_true ⟨_, _, rfl⟩ (Or.inl ⟨_, _, rfl⟩)
      | true =>
        rw [andThen_true]
        by_cases hy : reread rest = MsgType.reply
        · rw [deserializeReply_reply (hd.trans hy)]
          constructor
          · intro hf
            exact Or.inr ⟨args, X, rfl, hy, hf⟩
          · rintro (hf | ⟨args', X', he, -, hf⟩)
            · rw [returns_ok] at hf
              cases hf
            · cases he
              exact hf
        · rw [deserializeReply_other (by rw [← hd] at hy; exact hy), returns_ok]
          refine iff_of_false (by simp) ?_
          rintro (hf | ⟨args', X', -, hy', -⟩)
          · rw [returns_ok] at hf
            cases hf
          · exact hy hy'

theorem acceptsGrammar_refused (hb : BadHeader c.ahead)
    (hf : Returns (cornflakeDeserialize R (memStrm .decode c) cf) false) : AcceptsGrammar R c cf where
  accepts := iff_of_false (fun ht => not_returns_both ht hf) (not_wireGrammar_of_bad hb)
  refuses := fun _ => hf

theorem acceptsGrammar_reply {xid : Word} {rest : List Byte} (h : c.ahead = words [xid, MsgType.reply] ++ rest) :
    AcceptsGrammar R c cf where
  accepts := by rw [wireGrammar_reply h, deserialize_other h (by decide), deserializeReply_reply rfl]
  refuses := by
    intro hb
    rcases (badHeader_iff h).mp hb with ⟨-, hd⟩ | ⟨hd, -⟩
    · exact absurd rfl hd
    · cases hd

theorem acceptsGrammar_good {xid : Word} {rest : List Byte} (h : c.ahead = words [xid, MsgType.call] ++ rest)
    (hg : GoodCall rest) : AcceptsGrammar R c cf where
  accepts := by
    obtain ⟨prog, vers, proc, r, rfl⟩ := hg
    exact deserialize_good h
  refuses := by
    intro hb
    rcases (badHeader_iff h).mp hb with ⟨hd, -⟩ | ⟨-, hn⟩
    · exact absurd rfl hd
    · exact absurd hg hn

/-- **`cornflake_deserialize` accepts exactly the grammar, and refuses bad headers, if and only if the direction is
CALL or REPLY and a bad call header is refused by what the old record selects.** -/
theorem acceptsGrammar_iff (R : Registry FlexxdrMem α) (c : MemCursor) (cf : Cflake FlexxdrMem α) :
    AcceptsGrammar R c cf ↔ ∀ xid d rest, c.ahead = words [xid, d] ++ rest →
      d = MsgType.reply ∨ d = MsgType.call ∧ (GoodCall rest ∨ StaleRefuses R c cf xid rest) := by
  constructor
  · intro ha xid d rest h
    by_cases hr : d = MsgType.reply
    · exact Or.inl hr
    · by_cases hc : d = MsgType.call
      · subst hc
        by_cases hg : GoodCall rest
        · exact Or.inr ⟨rfl, Or.inl hg⟩
        · have hf := ha.refuses ((badHeader_iff h).mpr (Or.inr ⟨rfl, hg⟩))
          exact Or.inr ⟨rfl, Or.inr ((deserialize_stale h hg).mp hf)⟩
      · -- No branch takes another direction, and the function ends with TRUE.
        have hf := ha.refuses ((badHeader_iff h).mpr (Or.inl ⟨hc, hr⟩))
        rw [deserialize_other h hc, deserializeReply_other hr, returns_ok] at hf
        cases hf
  · intro hcond
    rcases two_words_cases c.ahead with hs | ⟨xid, d, rest, h⟩
    · obtain ⟨cf', c', -, hf⟩ := deserialize_short R cf hs
      exact acceptsGrammar_refused (Or.inl hs) ⟨cf', _, hf⟩
    · rcases hcond xid d rest h with rfl | ⟨rfl, hor⟩
      · exact acceptsGrammar_reply h
      · by_cases hg : GoodCall rest
        · exact acceptsGrammar_good h hg
        · have hst := hor.resolve_left hg
          exact acceptsGrammar_refused ((badHeader_iff h).mpr (Or.inr ⟨rfl, hg⟩)) ((deserialize_stale h hg).mpr hst)

/-- The two words `7` and `2` are accepted. -/
theorem accepts_direction_two :
    ¬ AcceptsGrammar (Registry.empty : Registry FlexxdrMem Unit) (.ofBuffer (words [7, 2]) (by decide)) ⟨.zeros, ()⟩ := by
  intro ha
  have h : (MemCursor.ofBuffer (words [7, 2]) (by decide)).ahead = words [7, 2] ++ [] := rfl
  have hf := ha.refuses ((badHeader_iff h).mpr (Or.inl (by decide)))
  rw [deserialize_other h (by decide), deserializeReply_other (by decide), returns_ok] at hf
  cases hf

end Cornflakes

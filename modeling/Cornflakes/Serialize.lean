import Cornflakes.Cornflake

/-!
# What `cornflake_serialize` does with a call

Into a memory stream a call whose checked fields do not fit, or whose first five words find no room, is refused
(`serialize_refused`). With room for just these the procedure word is lost and the result is TRUE (`serialize_cut`).
With room for six words the schema is called on the rest and its result is dropped (`serialize_whole`).

- `writesWholeCall_iff`: success means that the whole call was written, if and only if the room does not end inside the
  procedure word and the schema does not return FALSE;
- `unambiguous_iff`: two calls with the same bytes are the same call, and what does not fit is refused, if and only if
  the unchecked `proc` fits wherever the checked fields do.
-/

set_option autoImplicit false

namespace Cornflakes

open Wire Flexrpc

variable {α : Type}

/-- The six words of a call before its arguments. -/
def callMessage {σ : Type} (m : RpcMsg σ α) : List Word := m.headerWords ++ [m.cbProc.setWidth 32]

section Cases

variable {R : Registry FlexxdrMem α} {c : MemCursor} {cf : Cflake FlexxdrMem α}

theorem serialize_refused (hd : cf.msg.rmDirection = MsgType.call) (h : cf.msg.HeaderFits → c.room < 20) :
    ∃ c', cornflakeSerialize R (memStrm .encode c) cf =
      .ok (false, cf.setMsg (callhdrMsg cf.msg), memStrm .encode c') := by
  have hc : ∃ c', flexxdrCallhdr (memStrm .encode c) cf.msg = .ok (false, callhdrMsg cf.msg, memStrm .encode c') := by
    by_cases hf : cf.msg.HeaderFits
    · exact callhdr_short hf c (h hf)
    · exact callhdr_refuses hf c
  obtain ⟨c', hc⟩ := hc
  refine ⟨c', ?_⟩
  rw [cornflakeSerialize, if_pos hd, serializeCall, hc, onField_ok, andThen_false]

/-- With five words written the function goes on to the procedure word. -/
theorem serialize_header (hd : cf.msg.rmDirection = MsgType.call) (hf : cf.msg.HeaderFits) (h : 20 ≤ c.room) :
    cornflakeSerialize R (memStrm .encode c) cf = (do
      let schema := cornflakeGetSchema R cf.msg.cbProg cf.msg.cbVers cf.msg.cbProc MsgType.call
      let (ok, X) ← flexxdrPutlong (memStrm .encode (c.write (words cf.msg.headerWords))) cf.msg.cbProc
      if !ok then return (true, cf.setMsg (callhdrMsg cf.msg), X)
      let (_, args, X) ← callProc schema X cf.args
      return (true, (cf.setMsg (callhdrMsg cf.msg)).setArgs args, X)) := by
  have hc := callhdr_puts hf c (by rw [length_words]; exact h)
  rw [cornflakeSerialize, if_pos hd, serializeCall]
  simp only [hc, onField_ok, andThen_true]
  rfl

theorem serialize_cut (hd : cf.msg.rmDirection = MsgType.call) (hf : cf.msg.HeaderFits) (h : 20 ≤ c.room)
    (hc : c.room < 24) :
    cornflakeSerialize R (memStrm .encode c) cf =
      .ok (true, cf.setMsg (callhdrMsg cf.msg), memStrm .encode (c.write (words cf.msg.headerWords))) := by
  have hr : (c.write (words cf.msg.headerWords)).room < 4 := by
    rw [Cursor.room_write, length_words]
    have hl : cf.msg.headerWords.length = 5 := rfl
    omega
  rw [serialize_header hd hf h]
  simp only [putlong_full _ hr, ok_bind]
  rfl

theorem serialize_whole (hd : cf.msg.rmDirection = MsgType.call) (hf : cf.msg.HeaderFits) (h : 24 ≤ c.room) :
    cornflakeSerialize R (memStrm .encode c) cf = (do
      let schema := cornflakeGetSchema R cf.msg.cbProg cf.msg.cbVers cf.msg.cbProc MsgType.call
      let (_, args, X) ← callProc schema (memStrm .encode (c.write (words (callMessage cf.msg)))) cf.args
      return (true, (cf.setMsg (callhdrMsg cf.msg)).setArgs args, X)) := by
  have hr : 4 ≤ (c.write (words cf.msg.headerWords)).room := by
    rw [Cursor.room_write, length_words]
    have hl : cf.msg.headerWords.length = 5 := rfl
    omega
  have hw : (c.write (words cf.msg.headerWords)).write (toBytes (cf.msg.cbProc.setWidth 32)) =
      c.write (words (callMessage cf.msg)) := by
    rw [Cursor.write_write, callMessage, words_append]
    rfl
  rw [serialize_header hd hf (by omega)]
  simp only [putlong_room _ hr, hw, ok_bind]
  rfl

end Cases

/-! ## Success and the whole call -/

/-- A call that is about to be sent: its key finds the schema `schema` in the registry. -/
structure Sending (α : Type) where
  R : Registry FlexxdrMem α
  c : MemCursor
  cf : Cflake FlexxdrMem α
  schema : FlexxdrProc FlexxdrMem α
  isCall : cf.msg.rmDirection = MsgType.call
  resolves : cornflakeGetSchema R cf.msg.cbProg cf.msg.cbVers cf.msg.cbProc MsgType.call = some schema

namespace Sending

/-- Run `cornflake_serialize`. -/
def serialize (a : Sending α) : Except Fault (Outcome FlexxdrMem (Cflake FlexxdrMem α)) :=
  cornflakeSerialize a.R (memStrm .encode a.c) a.cf

/-- Run the schema alone, after the six words. -/
def encodeArgs (a : Sending α) : Except Fault (Outcome FlexxdrMem α) :=
  a.schema.code (memStrm .encode (a.c.write (words (callMessage a.cf.msg)))) a.cf.args

/-- What the schema returns is dropped. -/
theorem serialize_ok (a : Sending α) (hf : a.cf.msg.HeaderFits) (h : 24 ≤ a.c.room) {ok : Bool} {args : α}
    {X : Flexxdr FlexxdrMem} (he : a.encodeArgs = .ok (ok, args, X)) :
    a.serialize = .ok (true, (a.cf.setMsg (callhdrMsg a.cf.msg)).setArgs args, X) := by
  rw [serialize, serialize_whole a.isCall hf h, a.resolves]
  simp only [callProc_ok (show a.schema.code _ a.cf.args = _ from he), ok_bind]
  rfl

theorem serialize_fault (a : Sending α) (hf : a.cf.msg.HeaderFits) (h : 24 ≤ a.c.room) {f : Fault}
    (he : a.encodeArgs = .error f) : a.serialize = .error (.inProc f) := by
  have hc : a.schema.code (memStrm .encode (a.c.write (words (callMessage a.cf.msg)))) a.cf.args = .error f := he
  rw [serialize, serialize_whole a.isCall hf h, a.resolves]
  simp only [callProc_some, hc]
  rfl

end Sending

/-- `cornflake_serialize` returns TRUE exactly when there is room for six words and the schema returns TRUE after them,
and then the stream is where the schema left it. -/
structure WritesWholeCall (a : Sending α) : Prop where
  succeeds : Returns a.serialize true ↔ 24 ≤ a.c.room ∧ Returns a.encodeArgs true
  writes : ∀ cf' X, a.serialize = .ok (true, cf', X) → ∃ args', a.encodeArgs = .ok (true, args', X)

section WholeCall

variable {a : Sending α}

theorem writesWholeCall_refused (h : a.c.room < 20) : WritesWholeCall a := by
  obtain ⟨c', hs⟩ := serialize_refused (R := a.R) a.isCall fun _ => h
  have hs : a.serialize = .ok (false, _, _) := hs
  refine ⟨?_, ?_⟩
  · rw [hs, returns_ok]
    exact iff_of_false (by simp) fun hr => absurd hr.1 (by omega)
  · intro cf' X hr
    rw [hs] at hr
    cases hr

theorem not_writesWholeCall_cut (hf : a.cf.msg.HeaderFits) (h : 20 ≤ a.c.room) (hc : a.c.room < 24) :
    ¬ WritesWholeCall a := by
  intro hw
  have hs : a.serialize = .ok (true, _, _) := serialize_cut a.isCall hf h hc
  have hr := (hw.succeeds.mp ⟨_, _, hs⟩).1
  omega

theorem writesWholeCall_room (hf : a.cf.msg.HeaderFits) (h : 24 ≤ a.c.room) :
    WritesWholeCall a ↔ ¬ Returns a.encodeArgs false := by
  rcases he : a.encodeArgs with f | ⟨ok, args, X⟩
  · have hs := a.serialize_fault hf h he
    refine iff_of_true ⟨?_, ?_⟩ (not_returns_error f _)
    · rw [hs, he]
      exact iff_of_false (not_returns_error _ _) fun hr => not_returns_error _ _ hr.2
    · intro cf' X hr
      rw [hs] at hr
      cases hr
  · have hs := a.serialize_ok hf h he
    cases ok with
    | false =>
      refine iff_of_false ?_ fun hn => hn ⟨_, _, rfl⟩
      intro hw
      have hr := (hw.succeeds.mp ⟨_, _, hs⟩).2
      rw [he, returns_ok] at hr
      cases hr
    | true =>
      refine iff_of_true ⟨?_, ?_⟩ fun hr => by rw [returns_ok] at hr; cases hr
      · rw [hs, he]
        exact iff_of_true ⟨_, _, rfl⟩ ⟨h, _, _, rfl⟩
      · intro cf' X' hr
        rw [hs] at hr
        cases hr
        exact ⟨args, he⟩

end WholeCall

/-- **Success means that the whole call was written, if and only if the room does not end inside the procedure word
and the schema does not return FALSE.** -/
theorem writesWholeCall_iff (a : Sending α) (hf : a.cf.msg.HeaderFits) :
    WritesWholeCall a ↔ a.c.room < 20 ∨ 24 ≤ a.c.room ∧ ¬ Returns a.encodeArgs false := by
  by_cases h20 : a.c.room < 20
  · exact iff_of_true (writesWholeCall_refused h20) (Or.inl h20)
  · by_cases h24 : 24 ≤ a.c.room
    · rw [writesWholeCall_room hf h24]
      exact ⟨fun hn => Or.inr ⟨h24, hn⟩, fun hor => (hor.resolve_left h20).2⟩
    · refine iff_of_false (not_writesWholeCall_cut hf (by omega) (by omega)) ?_
      rintro (h | ⟨h, -⟩)
      · exact h20 h
      · exact h24 h

/-- A call of procedure `proc` of version `1` of program `1`. -/
def callOf (proc : ULong) : RpcMsg FlexxdrMem α := ((RpcMsg.zeros.setCbProg 1).setCbVers 1).setCbProc proc

/-- A call without arguments, into a buffer of `n` bytes. -/
def voidCall (proc : ULong) (n : Nat) (h : n < 2 ^ 32) : Sending Unit where
  R := registerAll [⟨1, 1, proc, some (voidProc 4096), none, 0⟩]
  c := .ofBuffer (List.replicate n 0) (by rw [List.length_replicate]; exact h)
  cf := ⟨callOf proc, ()⟩
  isCall := rfl
  schema := voidProc 4096
  resolves := by
    rw [getSchema_registerAll (by simp)]
    exact if_pos (by simp [CfRegistry.key, callOf])

theorem writesWholeCall_iff_voidCall : WritesWholeCall (voidCall 1 24 (by decide)) ↔
    (voidCall 1 24 (by decide)).c.room < 20 ∨
      24 ≤ (voidCall 1 24 (by decide)).c.room ∧ ¬ Returns (voidCall 1 24 (by decide)).encodeArgs false :=
  writesWholeCall_iff (voidCall 1 24 (by decide)) ⟨by decide, by decide, by decide⟩

/-- With room for five words the function returns TRUE. -/
theorem five_words_succeed : ¬ WritesWholeCall (voidCall 1 20 (by decide)) :=
  not_writesWholeCall_cut ⟨by decide, by decide, by decide⟩ (by decide) (by decide)

/-! ## Calls with the same bytes -/

/-- The handle is a stream into which `bs` were put from the place `c` on. -/
def Wrote (c : MemCursor) (X : Flexxdr FlexxdrMem) (bs : List Byte) : Prop :=
  ∃ c', X = memStrm .encode c' ∧ c'.before = c.before ++ bs

theorem wrote_unique {c : MemCursor} {X : Flexxdr FlexxdrMem} {bs bs' : List Byte} (h : Wrote c X bs)
    (h' : Wrote c X bs') : bs = bs' := by
  obtain ⟨d, rfl, hd⟩ := h
  obtain ⟨d', he, hd'⟩ := h'
  have hb := memStrm_before he
  rw [hd, hd'] at hb
  exact List.append_cancel_left hb

/-- The schema leaves alone what was written before its arguments. -/
def Sending.AppendsOnly (a : Sending α) : Prop :=
  ∀ c ok args X, a.schema.code (memStrm .encode c) a.cf.args = .ok (ok, args, X) → ∃ bs, Wrote c X bs

/-- Two calls that were both sent with the same bytes are the same, and a call with a field that does not fit in a word
is refused. -/
structure Unambiguous (a b : Sending α) : Prop where
  injective : ∀ cf X cf' X' bs, a.serialize = .ok (true, cf, X) → b.serialize = .ok (true, cf', X') →
    Wrote a.c X bs → Wrote b.c X' bs →
    a.cf.msg.rmXid = b.cf.msg.rmXid ∧ a.cf.msg.cbProg = b.cf.msg.cbProg ∧ a.cf.msg.cbVers = b.cf.msg.cbVers ∧
      a.cf.msg.cbProc = b.cf.msg.cbProc
  refuses : ∀ s ∈ [a, b], ¬ (s.cf.msg.HeaderFits ∧ s.cf.msg.cbProc.toNat < 2 ^ 32) → Returns s.serialize false

section Same

variable {a b : Sending α}

theorem headerFits_of_true {cf : Cflake FlexxdrMem α} {X : Flexxdr FlexxdrMem} (h : a.serialize = .ok (true, cf, X)) :
    a.cf.msg.HeaderFits := by
  by_contra hf
  obtain ⟨c', hs⟩ := serialize_refused (R := a.R) (c := a.c) a.isCall fun h => absurd h hf
  rw [Sending.serialize, hs] at h
  cases h

/-- What was sent starts with the six words. -/
theorem wrote_message (hs : a.AppendsOnly) (hr : 24 ≤ a.c.room) {cf : Cflake FlexxdrMem α} {X : Flexxdr FlexxdrMem}
    {bs : List Byte} (h : a.serialize = .ok (true, cf, X)) (hw : Wrote a.c X bs) :
    ∃ r, bs = words (callMessage a.cf.msg) ++ r := by
  have hf := headerFits_of_true h
  rcases he : a.encodeArgs with f | ⟨ok, args, X'⟩
  · rw [a.serialize_fault hf hr he] at h
    cases h
  · rw [a.serialize_ok hf hr he] at h
    cases h
    obtain ⟨r, d, rfl, hd⟩ := hs _ _ _ _ he
    refine ⟨r, wrote_unique hw ⟨d, rfl, ?_⟩⟩
    rw [hd, Cursor.before_write, List.append_assoc]

/-- Fields that fit are determined by their words. -/
theorem eq_of_setWidth {v w : ULong} (hv : v.toNat < 2 ^ 32) (hw : w.toNat < 2 ^ 32)
    (h : v.setWidth 32 = w.setWidth 32) : v = w := by
  rw [← (setWidth_fits v).mpr hv, ← (setWidth_fits w).mpr hw, h]

theorem message_inj (ha : a.cf.msg.HeaderFits ∧ a.cf.msg.cbProc.toNat < 2 ^ 32)
    (hb : b.cf.msg.HeaderFits ∧ b.cf.msg.cbProc.toNat < 2 ^ 32) {r r' : List Byte}
    (h : words (callMessage a.cf.msg) ++ r = words (callMessage b.cf.msg) ++ r') :
    a.cf.msg.rmXid = b.cf.msg.rmXid ∧ a.cf.msg.cbProg = b.cf.msg.cbProg ∧ a.cf.msg.cbVers = b.cf.msg.cbVers ∧
      a.cf.msg.cbProc = b.cf.msg.cbProc := by
  have hl : (callMessage a.cf.msg).length = (callMessage b.cf.msg).length := rfl
  obtain ⟨hw, -⟩ := words_append_inj hl h
  simp only [callMessage, RpcMsg.headerWords, List.cons_append, List.nil_append, List.cons.injEq, and_true,
    true_and] at hw
  obtain ⟨hx, hp, hv, hq⟩ := hw
  obtain ⟨⟨fx, fp, fv⟩, fq⟩ := ha
  obtain ⟨⟨gx, gp, gv⟩, gq⟩ := hb
  exact ⟨eq_of_setWidth fx gx hx, eq_of_setWidth fp gp hp, eq_of_setWidth fv gv hv, eq_of_setWidth fq gq hq⟩

/-- A call whose checked fields fit is never refused when there is room. -/
theorem not_refused (hf : a.cf.msg.HeaderFits) (hr : 24 ≤ a.c.room) : ¬ Returns a.serialize false := by
  rcases he : a.encodeArgs with f | ⟨ok, args, X⟩
  · rw [a.serialize_fault hf hr he]
    exact not_returns_error _ _
  · rw [a.serialize_ok hf hr he, returns_ok]
    simp

/-- **Two calls with the same bytes are the same, and what does not fit is refused, if and only if `proc` fits wherever
the checked fields do.** -/
theorem unambiguous_iff (a b : Sending α) (ha : a.AppendsOnly) (hb : b.AppendsOnly) (har : 24 ≤ a.c.room)
    (hbr : 24 ≤ b.c.room) :
    Unambiguous a b ↔ ∀ s ∈ [a, b], s.cf.msg.HeaderFits → s.cf.msg.cbProc.toNat < 2 ^ 32 := by
  constructor
  · intro hu s hs hf
    by_contra hp
    have hr : 24 ≤ s.c.room := by
      rcases List.mem_pair.mp hs with rfl | rfl
      · exact har
      · exact hbr
    exact not_refused hf hr (hu.refuses s hs fun h => hp h.2)
  · intro hcond
    refine ⟨?_, ?_⟩
    · intro cf X cf' X' bs hsa hsb hwa hwb
      have hfa := headerFits_of_true hsa
      have hfb := headerFits_of_true hsb
      obtain ⟨r, rfl⟩ := wrote_message ha har hsa hwa
      obtain ⟨r', hr'⟩ := wrote_message hb hbr hsb hwb
      exact message_inj ⟨hfa, hcond a (by simp) hfa⟩ ⟨hfb, hcond b (by simp) hfb⟩ hr'
    · intro s hs hn
      have hf : ¬ s.cf.msg.HeaderFits := fun hf => hn ⟨hf, hcond s hs hf⟩
      obtain ⟨c', h⟩ := serialize_refused (R := s.R) (c := s.c) s.isCall fun h => absurd h hf
      exact ⟨_, _, h⟩

end Same

theorem voidCall_appendsOnly (proc : ULong) (n : Nat) (h : n < 2 ^ 32) : (voidCall proc n h).AppendsOnly := by
  intro c ok args X he
  cases he
  exact ⟨[], c, rfl, by simp⟩

theorem unambiguous_iff_voidCall : Unambiguous (voidCall 1 24 (by decide)) (voidCall 2 24 (by decide)) ↔
    ∀ s ∈ [voidCall 1 24 (by decide), voidCall 2 24 (by decide)],
      s.cf.msg.HeaderFits → s.cf.msg.cbProc.toNat < 2 ^ 32 :=
  unambiguous_iff _ _ (voidCall_appendsOnly _ _ _) (voidCall_appendsOnly _ _ _) (by decide) (by decide)

/-- Procedures `1` and `2 ^ 32 + 1` are sent with the same bytes. -/
theorem truncated_proc_sent : ¬ Unambiguous (voidCall 1 24 (by decide)) (voidCall 0x100000001 24 (by decide)) := by
  intro hu
  have ha := (voidCall 1 24 (by decide)).serialize_ok ⟨by decide, by decide, by decide⟩ (by decide) rfl
  have hb := (voidCall 0x100000001 24 (by decide)).serialize_ok ⟨by decide, by decide, by decide⟩ (by decide) rfl
  have he := hu.injective _ _ _ _ (words [0, 0, 8, 1, 1, 1]) ha hb ⟨_, rfl, rfl⟩ ⟨_, rfl, rfl⟩
  exact absurd he.2.2.2 (by decide)

end Cornflakes

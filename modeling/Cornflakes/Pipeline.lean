import Cornflakes.Parallel
import Cornflakes.Oats
import Cornflakes.Flexrpc.MemParallel

/-!
# Sequences of messages on one handle

Any registry, any records and any sequence of messages, with procedures that touch the stream through its operations
only (`ReadsAhead`, `WritesAhead`):

- `receives_same`: what is received depends on the bytes ahead alone, wherever in whatever buffer they lie; the buffer
  stays as it is;
- `sends_same`: what is sent depends on the room alone; the same bytes go into every buffer, and nothing around them
  changes.
-/

set_option autoImplicit false

namespace Cornflakes

open Wire Flexrpc

variable {σ α : Type}

/-! ## Procedures and records that hold them -/

/-- Decoding, the procedure does the same wherever the same bytes are ahead, and only steps over them. -/
def ReadsAhead (p : FlexxdrProc FlexxdrMem α) : Prop :=
  ∀ c d : MemCursor, c.ahead = d.ahead → SameProc (Reading c d) Eq p p

/-- Encoding, it does the same wherever there is the same room, and only puts bytes there. -/
def WritesAhead (p : FlexxdrProc FlexxdrMem α) : Prop :=
  ∀ c d : MemCursor, c.room = d.room → SameProc (Writing c d) Eq p p

/-- Every schema that is registered satisfies `P`. -/
def Schemas (P : FlexxdrProc σ α → Prop) (es : List (CfRegistry σ α)) : Prop :=
  ∀ e ∈ es, (∀ p, e.cfCallSchema = some p → P p) ∧ ∀ p, e.cfReplySchema = some p → P p

/-- Every procedure that is stored in the record of a message satisfies `P`. -/
def Cflake.Stored (P : FlexxdrProc σ α → Prop) (cf : Cflake σ α) : Prop :=
  (∀ p, cf.msg.body.low = .proc p → P p) ∧ ∀ p, cf.msg.body.high = .proc p → P p

section Same

variable {R : Flexxdr σ → Flexxdr σ → Prop}

theorem sameSlot_refl {s : Slot σ α} (h : ∀ p, s = .proc p → SameProc R Eq p p) : SameSlot R Eq s s := by
  cases s with
  | word w => exact .word w
  | ptr addr a => exact .ptr addr rfl
  | proc p => exact .proc (h p rfl)

theorem sameCflake_refl {cf : Cflake σ α} (h : cf.Stored fun p => SameProc R Eq p p) : SameCflake R Eq cf cf :=
  ⟨⟨rfl, rfl, rfl, rfl, sameSlot_refl h.1, sameSlot_refl h.2⟩, rfl⟩

theorem sameSchema_refl {s : Option (FlexxdrProc σ α)} (h : ∀ p, s = some p → SameProc R Eq p p) :
    Option.Rel (SameProc R Eq) s s := by
  cases s with
  | none => exact .none
  | some p => exact .some (h p rfl)

theorem sameEntries_refl {es : List (CfRegistry σ α)} (h : Schemas (fun p => SameProc R Eq p p) es) :
    List.Forall₂ (SameEntry R Eq) es es := by
  refine List.forall₂_same.mpr fun e he => ?_
  exact ⟨rfl, rfl, rfl, sameSchema_refl (h e he).1, sameSchema_refl (h e he).2⟩

end Same

/-! ## Receiving -/

/-- One message after another from one handle, up to the first that is refused. -/
def receives (A : Registry FlexxdrMem α) (c : MemCursor) (cfs : List (Cflake FlexxdrMem α)) :
    Except Fault (Outcome FlexxdrMem (List (Cflake FlexxdrMem α))) :=
  runAll (cornflakeDeserialize A) (memStrm .decode c) cfs

/-- The same fault, or the same result with the same records, down to what their places hold; as many bytes are stepped
over, and neither buffer changes. -/
structure SameReceives (A : Registry FlexxdrMem α) (cfs : List (Cflake FlexxdrMem α)) (c d : MemCursor) : Prop where
  faults : ∀ f, receives A c cfs = .error f ↔ receives A d cfs = .error f
  results : ∀ b cfs₁ X, receives A c cfs = .ok (b, cfs₁, X) → ∃ cfs₂ n, n ≤ c.room ∧
    X = memStrm .decode (c.advance n) ∧ receives A d cfs = .ok (b, cfs₂, memStrm .decode (d.advance n)) ∧
    List.Forall₂ (SameCflake (Reading c d) Eq) cfs₁ cfs₂

section Receiving

variable {es : List (CfRegistry FlexxdrMem α)} {cfs : List (Cflake FlexxdrMem α)} {c d : MemCursor}

/-- One message, after as many bytes. -/
theorem deserialize_reading (hes : Schemas ReadsAhead es) (h : c.ahead = d.ahead) {X Y : Flexxdr FlexxdrMem}
    (hXY : Reading c d X Y) {cf cf' : Cflake FlexxdrMem α} (hcf : SameCflake (Reading c d) Eq cf cf') :
    Alike (Outcomes (SameCflake (Reading c d) Eq) (Reading c d)) (cornflakeDeserialize (registerAll es) X cf)
      (cornflakeDeserialize (registerAll es) Y cf') := by
  have hR := (reading_parallel h).toParallel
  have hA : SameRegistry (Reading c d) Eq (registerAll es) (registerAll es) :=
    same_registerAll <| sameEntries_refl fun e he => ⟨fun p hp => (hes e he).1 p hp c d h, fun p hp => (hes e he).2 p hp c d h⟩
  refine deserialize_alike hR hA (fun X Y hXY m m' hm => ?_) hXY hcf
  obtain ⟨n, hn, rfl, rfl⟩ := hXY
  exact (callmsg_reading (ahead_advance_eq h n) hm).weaken fun o o' ho => ⟨ho.1, ho.2.1, ho.2.2.trans hn⟩

theorem stored_reading {cf : Cflake FlexxdrMem α} (hcf : cf.Stored ReadsAhead) (h : c.ahead = d.ahead) :
    SameCflake (Reading c d) Eq cf cf :=
  sameCflake_refl ⟨fun p hp => hcf.1 p hp c d h, fun p hp => hcf.2 p hp c d h⟩

theorem receives_alike (hes : Schemas ReadsAhead es) (hcfs : ∀ cf ∈ cfs, cf.Stored ReadsAhead) (h : c.ahead = d.ahead) :
    Alike (Outcomes (List.Forall₂ (SameCflake (Reading c d) Eq)) (Reading c d)) (receives (registerAll es) c cfs)
      (receives (registerAll es) d cfs) :=
  Alike.runAll (fun _ _ _ _ hXY hcf => deserialize_reading hes h hXY hcf)
    (List.forall₂_same.mpr fun cf hcf => stored_reading (hcfs cf hcf) h) reading_start

/-- **What is received depends on the bytes ahead alone, and receiving changes no buffer.** -/
theorem receives_same (es : List (CfRegistry FlexxdrMem α)) (hes : Schemas ReadsAhead es)
    (cfs : List (Cflake FlexxdrMem α)) (hcfs : ∀ cf ∈ cfs, cf.Stored ReadsAhead) {c d : MemCursor}
    (h : c.ahead = d.ahead) : SameReceives (registerAll es) cfs c d := by
  have ha := receives_alike hes hcfs h
  refine ⟨ha.error_iff, fun b cfs₁ X hr => ?_⟩
  obtain ⟨⟨b', cfs₂, Y⟩, hr', hb, hf, n, hn, hX, hY⟩ := ha.exists_ok hr
  simp only at hb hf hX hY
  subst hb hX hY
  exact ⟨cfs₂, n, hn, rfl, hr', hf⟩

end Receiving

theorem schemas_oats (O : Oats) {P : FlexxdrProc σ OatsArgs → Prop} (hc : P O.callSchema) (hr : P O.replySchema) :
    Schemas P [O.registration] := by
  intro e he
  rw [List.mem_singleton.mp he]
  refine ⟨fun p hp => ?_, fun p hp => ?_⟩
  · cases hp
    exact hc
  · cases hp
    exact hr

theorem readsAhead_oats (O : Oats) : Schemas ReadsAhead [O.registration] :=
  schemas_oats O (fun _ _ h => sameProc_call O (reading_parallel h)) fun _ _ h => sameProc_reply O (reading_parallel h)

theorem writesAhead_oats (O : Oats) : Schemas WritesAhead [O.registration] :=
  schemas_oats O (fun _ _ h => sameProc_call O (writing_parallel h)) fun _ _ h => sameProc_reply O (writing_parallel h)

/-- A program whose allocations are zeros. -/
def oatsAt : Oats := ⟨calloc, 4096, 8192, 0⟩

/-- A call of `printmessage` for the name `A` without a title. -/
def shortCall : List Byte := words [7, MsgType.call, 8, 0x20000001, 1, 1, 1, 0x41000000, 0]

/-- Buffers for it, a record, and a handle. -/
def intoBuffers : Cflake FlexxdrMem OatsArgs := ⟨.zeros, .call ⟨some [0, 0], some [0, 0]⟩⟩

theorem receives_same_shortCall : SameReceives (registerAll [oatsAt.registration]) [intoBuffers]
    (.ofBuffer shortCall (by decide)) ⟨[1, 2, 3], shortCall, [4], by decide⟩ :=
  receives_same [oatsAt.registration] (readsAhead_oats oatsAt) [intoBuffers]
    (by simp [intoBuffers, Cflake.Stored, RpcMsg.zeros]) rfl

/-! ## Sending -/

/-- One message after another into one handle, up to the first that is refused. -/
def sends (A : Registry FlexxdrMem α) (c : MemCursor) (cfs : List (Cflake FlexxdrMem α)) :
    Except Fault (Outcome FlexxdrMem (List (Cflake FlexxdrMem α))) :=
  runAll (cornflakeSerialize A) (memStrm .encode c) cfs

/-- The same fault, or the same result with the same records, down to what their places hold; the same bytes are put into
both buffers, and nothing else in them changes. -/
structure SameSends (A : Registry FlexxdrMem α) (cfs : List (Cflake FlexxdrMem α)) (c d : MemCursor) : Prop where
  faults : ∀ f, sends A c cfs = .error f ↔ sends A d cfs = .error f
  results : ∀ b cfs₁ X, sends A c cfs = .ok (b, cfs₁, X) → ∃ cfs₂ bs, bs.length ≤ c.room ∧
    X = memStrm .encode (c.write bs) ∧ sends A d cfs = .ok (b, cfs₂, memStrm .encode (d.write bs)) ∧
    List.Forall₂ (SameCflake (Writing c d) Eq) cfs₁ cfs₂

section Sending

variable {es : List (CfRegistry FlexxdrMem α)} {cfs : List (Cflake FlexxdrMem α)} {c d : MemCursor}

theorem sends_alike (hes : Schemas WritesAhead es) (hcfs : ∀ cf ∈ cfs, cf.Stored WritesAhead) (h : c.room = d.room) :
    Alike (Outcomes (List.Forall₂ (SameCflake (Writing c d) Eq)) (Writing c d)) (sends (registerAll es) c cfs)
      (sends (registerAll es) d cfs) := by
  have hR := (writing_parallel h).toParallel
  have hA : SameRegistry (Writing c d) Eq (registerAll es) (registerAll es) :=
    same_registerAll <| sameEntries_refl fun e he => ⟨fun p hp => (hes e he).1 p hp c d h, fun p hp => (hes e he).2 p hp c d h⟩
  refine Alike.runAll (fun X Y cf cf' hXY hcf => serialize_alike hR hA hXY hcf) ?_ writing_start
  refine List.forall₂_same.mpr fun cf hcf => sameCflake_refl ?_
  exact ⟨fun p hp => (hcfs cf hcf).1 p hp c d h, fun p hp => (hcfs cf hcf).2 p hp c d h⟩

/-- **What is sent depends on the room alone, and sending changes nothing around it.** -/
theorem sends_same (es : List (CfRegistry FlexxdrMem α)) (hes : Schemas WritesAhead es)
    (cfs : List (Cflake FlexxdrMem α)) (hcfs : ∀ cf ∈ cfs, cf.Stored WritesAhead) {c d : MemCursor}
    (h : c.room = d.room) : SameSends (registerAll es) cfs c d := by
  have ha := sends_alike hes hcfs h
  refine ⟨ha.error_iff, fun b cfs₁ X hr => ?_⟩
  obtain ⟨⟨b', cfs₂, Y⟩, hr', hb, hf, bs, hbs, hX, hY⟩ := ha.exists_ok hr
  simp only at hb hf hX hY
  subst hb hX hY
  exact ⟨cfs₂, bs, hbs, rfl, hr', hf⟩

end Sending

/-- A call with its arguments. -/
def shortMessage : Cflake FlexxdrMem OatsArgs :=
  ⟨⟨7, MsgType.call, 0, ⟨OATSPROGRAM, .word PRINTMESSAGEVER, .word PRINTMESSAGE⟩⟩, .call ⟨some [65, 0], some [0]⟩⟩

theorem sends_same_shortMessage : SameSends (registerAll [oatsAt.registration]) [shortMessage]
    (.ofBuffer (List.replicate 80 0) (by decide)) ⟨[1, 2, 3], List.replicate 80 9, [4], by decide⟩ :=
  sends_same [oatsAt.registration] (writesAhead_oats oatsAt) [shortMessage]
    (by simp [shortMessage, Cflake.Stored]) rfl

end Cornflakes

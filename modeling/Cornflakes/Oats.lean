import Cornflakes.Registry
import Cornflakes.Flexrpc.StrInto
import Cornflakes.Flexrpc.Parallel

/-!
# The service of the examples (`templates/oats.c`)

The schemas of `printmessage`, a procedure that takes a name and a title and gives back a name and a number, and the
registry of a program that registers it. What the schema of a call makes of the bytes ahead (`callArgs_into`) and of
the room that is left (`callArgs_part`), and the same for a reply (`replyArgs_into`, `replyArgs_puts`).
-/

set_option autoImplicit false

namespace Cornflakes

open Wire Flexrpc

variable {σ : Type}

def OATSPROGRAM : ULong := 0x20000001
def PRINTMESSAGEVER : ULong := 1
def PRINTMESSAGE : ULong := 1

/-- `struct printmessage_call_args`, with what the buffers at `*name` and `*title` hold. -/
structure PrintmessageCallArgs where
  name : Option (List Byte)
  title : Option (List Byte)

/-- `struct printmessage_reply_args`, with what the buffer at `*name` holds, and `*result`. -/
structure PrintmessageReplyArgs where
  name : Option (List Byte)
  result : Word

/-- What the `args` of a schema points to; `other` is storage of another type. -/
inductive OatsArgs
  | call (args : PrintmessageCallArgs)
  | reply (args : PrintmessageReplyArgs)
  | other

def maxStringSize : Word := 255

/-- The codecs of `printmessage_call`, `name && title`. -/
def callArgs (A : Allocator) (X : Flexxdr σ) (argPtr : PrintmessageCallArgs) :
    Except Fault (Outcome σ PrintmessageCallArgs) :=
  andThen (onField (flexxdrString A X argPtr.name maxStringSize) fun name => { argPtr with name }) fun X argPtr =>
    onField (flexxdrString A X argPtr.title maxStringSize) fun title => { argPtr with title }

/-- Storage of another type has no `name` and no `title`. -/
def printmessageCall (A : Allocator) (X : Flexxdr σ) : OatsArgs → Except Fault (Outcome σ OatsArgs)
  | .call argPtr => onField (callArgs A X argPtr) .call
  | _ => .error .outOfBounds

/-- The codecs of `printmessage_reply`, `name && result`. -/
def replyArgs (A : Allocator) (X : Flexxdr σ) (argPtr : PrintmessageReplyArgs) :
    Except Fault (Outcome σ PrintmessageReplyArgs) :=
  andThen (onField (flexxdrString A X argPtr.name maxStringSize) fun name => { argPtr with name }) fun X argPtr =>
    onField (flexxdrUInt X argPtr.result) fun result => { argPtr with result }

def printmessageReply (A : Allocator) (X : Flexxdr σ) : OatsArgs → Except Fault (Outcome σ OatsArgs)
  | .reply argPtr => onField (replyArgs A X argPtr) .reply
  | _ => .error .outOfBounds

/-- What a program brings along: its allocator, the addresses of the two schemas, and the last argument of
`cornflake_register`, which the calls in the examples leave out. -/
structure Oats where
  A : Allocator
  callAddr : ULong
  replyAddr : ULong
  dispatch : ULong

namespace Oats

variable (O : Oats)

def callSchema : FlexxdrProc σ OatsArgs := { addr := O.callAddr, code := printmessageCall O.A }

def replySchema : FlexxdrProc σ OatsArgs := { addr := O.replyAddr, code := printmessageReply O.A }

/-- The registration that both programs start with. -/
def registration : CfRegistry σ OatsArgs :=
  ⟨OATSPROGRAM, PRINTMESSAGEVER, PRINTMESSAGE, some O.callSchema, some O.replySchema, O.dispatch⟩

def registry : Registry σ OatsArgs := registerAll [O.registration]

variable {O}

theorem getSchema_registry (prog vers proc : ULong) (d : Word) :
    cornflakeGetSchema (O.registry : Registry σ OatsArgs) prog vers proc d =
      if (OATSPROGRAM, PRINTMESSAGEVER, PRINTMESSAGE) = (prog, vers, proc) then
        if d = MsgType.call then some O.callSchema else if d = MsgType.reply then some O.replySchema else none
      else none := by
  have hv : PRINTMESSAGEVER ≠ 0 := by
    intro h
    cases h
  rw [registry, getSchema_registerAll (e := O.registration) hv]
  rfl

/-- The service finds its schemas. -/
theorem getSchema_call : cornflakeGetSchema (O.registry : Registry σ OatsArgs) OATSPROGRAM PRINTMESSAGEVER PRINTMESSAGE
    MsgType.call = some O.callSchema := by
  rw [getSchema_registry, if_pos rfl, if_pos rfl]

theorem getSchema_reply : cornflakeGetSchema (O.registry : Registry σ OatsArgs) OATSPROGRAM PRINTMESSAGEVER PRINTMESSAGE
    MsgType.reply = some O.replySchema := by
  rw [getSchema_registry, if_pos rfl, if_neg (show MsgType.reply ≠ MsgType.call by decide), if_pos rfl]

/-- Whatever schema is found, storage of another type is not for it. -/
theorem callProc_other {schema : Option (FlexxdrProc σ OatsArgs)} {prog vers proc : ULong} {d : Word}
    (h : cornflakeGetSchema (O.registry : Registry σ OatsArgs) prog vers proc d = schema) (X : Flexxdr σ) :
    ∃ f, callProc schema X .other = .error f := by
  rw [getSchema_registry] at h
  subst h
  split
  · split
    · exact ⟨_, rfl⟩
    · split
      · exact ⟨_, rfl⟩
      · exact ⟨_, rfl⟩
  · exact ⟨_, rfl⟩

end Oats

/-! ## The schemas on two kinds of streams -/

section Parallel

variable {τ : Type} {op : FlexxdrOp} {R : Flexxdr σ → Flexxdr τ → Prop} {X : Flexxdr σ} {Y : Flexxdr τ}

theorem printmessageCall_alike (A : Allocator) (hR : ParallelBytes op R) (h : R X Y) (args : OatsArgs) :
    Alike (Outcomes Eq R) (printmessageCall A X args) (printmessageCall A Y args) := by
  cases args with
  | call argPtr =>
    refine Alike.onField ?_ fun _ _ he => congrArg OatsArgs.call he
    refine ((string_alike A hR h _ _).onField fun _ _ he => by rw [he]).andThen fun X Y args args' h he => ?_
    subst he
    exact (string_alike A hR h _ _).onField fun _ _ he => by rw [he]
  | reply argPtr => exact .error _
  | other => exact .error _

theorem printmessageReply_alike (A : Allocator) (hR : ParallelBytes op R) (h : R X Y) (args : OatsArgs) :
    Alike (Outcomes Eq R) (printmessageReply A X args) (printmessageReply A Y args) := by
  cases args with
  | reply argPtr =>
    refine Alike.onField ?_ fun _ _ he => congrArg OatsArgs.reply he
    refine ((string_alike A hR h _ _).onField fun _ _ he => by rw [he]).andThen fun X Y args args' h he => ?_
    subst he
    exact (uInt_alike hR.toParallel h _).onField fun _ _ he => by rw [he]
  | call argPtr => exact .error _
  | other => exact .error _

theorem sameProc_call (O : Oats) (hR : ParallelBytes op R) : SameProc R Eq O.callSchema O.callSchema :=
  ⟨rfl, fun _ _ _ _ h he => he ▸ printmessageCall_alike O.A hR h _, fun _ _ _ _ => .error _⟩

theorem sameProc_reply (O : Oats) (hR : ParallelBytes op R) : SameProc R Eq O.replySchema O.replySchema :=
  ⟨rfl, fun _ _ _ _ h he => he ▸ printmessageReply_alike O.A hR h _, fun _ _ _ _ => .error _⟩

end Parallel

/-! ## The arguments of a call -/

/-- What decoding the arguments of a call into two buffers makes of the bytes ahead: the result, the buffers, and the
bytes to go on with. -/
def callArgsInto (name title bs : List Byte) : Option (Bool × (List Byte × List Byte) × List Byte) :=
  match stringInto maxStringSize name bs with
  | none => none
  | some (false, name, r) => some (false, (name, title), r)
  | some (true, name, r) => (stringInto maxStringSize title r).map fun (ok, title, r) => (ok, (name, title), r)

/-- What encoding the arguments of a call writes into `room` bytes, with its result. -/
def callArgsPart (name title : List Byte) (room : Nat) : Bool × List Byte :=
  match stringPart maxStringSize name room with
  | (false, bs) => (false, bs)
  | (true, bs) =>
    let (ok, bs') := stringPart maxStringSize title (room - bs.length)
    (ok, bs ++ bs')

section CallArgs

theorem callArgsInto_suffix {name title name' title' bs r : List Byte} {ok : Bool}
    (h : callArgsInto name title bs = some (ok, (name', title'), r)) : r <:+ bs := by
  unfold callArgsInto at h
  rcases hn : stringInto maxStringSize name bs with _ | ⟨_ | _, name₁, r₁⟩
  · rw [hn] at h
    cases h
  · rw [hn] at h
    cases h
    exact stringInto_suffix hn
  · rw [hn] at h
    obtain ⟨⟨ok₂, title₂, r₂⟩, ht, he⟩ := Option.map_eq_some_iff.mp h
    cases he
    exact (stringInto_suffix ht).trans (stringInto_suffix hn)

/-- The buffers stay as long as they are. -/
theorem length_callArgsInto {name title name' title' bs r : List Byte} {ok : Bool}
    (h : callArgsInto name title bs = some (ok, (name', title'), r)) :
    name'.length = name.length ∧ title'.length = title.length := by
  unfold callArgsInto at h
  rcases hn : stringInto maxStringSize name bs with _ | ⟨_ | _, name₁, r₁⟩
  · rw [hn] at h
    cases h
  · rw [hn] at h
    cases h
    exact ⟨length_stringInto hn, rfl⟩
  · rw [hn] at h
    obtain ⟨⟨ok₂, title₂, r₂⟩, ht, he⟩ := Option.map_eq_some_iff.mp h
    cases he
    exact ⟨length_stringInto hn, length_stringInto ht⟩

theorem callArgs_into (A : Allocator) (name title : List Byte) (c : MemCursor) :
    callArgs A (memStrm .decode c) ⟨some name, some title⟩ =
      match callArgsInto name title c.ahead with
      | none => .error .outOfBounds
      | some (ok, (name', title'), r) =>
        .ok (ok, ⟨some name', some title'⟩, memStrm .decode (c.advance (c.room - r.length))) := by
  unfold callArgsInto callArgs
  rw [string_into A maxStringSize name c]
  rcases hn : stringInto maxStringSize name c.ahead with _ | ⟨ok, name', r⟩
  · rfl
  · cases ok with
    | false => rfl
    | true =>
      have hr := stringInto_suffix hn
      have hc := ahead_advance_suffix hr
      simp only [onField_ok, andThen_true]
      rw [string_into A maxStringSize title, hc]
      rcases ht : stringInto maxStringSize title r with _ | ⟨ok', title', r'⟩
      · rfl
      · have hl := (stringInto_suffix ht).length_le
        have hl' : r.length ≤ c.room := hr.length_le
        have hroom : (c.advance (c.room - r.length)).room = r.length := congrArg List.length hc
        simp only [onField_ok, Option.map_some, hroom, Cursor.advance_advance]
        rw [show c.room - r.length + (r.length - r'.length) = c.room - r'.length by omega]

theorem callArgs_part (A : Allocator) {name title : List Byte} (hn : 0 ∉ name) (ht : 0 ∉ title) (nr tr : List Byte)
    (c : MemCursor) :
    callArgs A (memStrm .encode c) ⟨some (name ++ 0 :: nr), some (title ++ 0 :: tr)⟩ =
      .ok ((callArgsPart name title c.room).1, ⟨some (name ++ 0 :: nr), some (title ++ 0 :: tr)⟩,
        memStrm .encode (c.write (callArgsPart name title c.room).2)) := by
  unfold callArgsPart callArgs
  rw [string_part A maxStringSize hn nr c]
  rcases hp : stringPart maxStringSize name c.room with ⟨_ | _, bs⟩
  · rfl
  · simp only [onField_ok, andThen_true, string_part A maxStringSize ht tr, Cursor.room_write, Cursor.write_write]

end CallArgs

/-! ## The arguments of a reply -/

/-- What decoding the arguments of a reply makes of the bytes ahead: the result, the buffer for the name, the number,
and the bytes to go on with. -/
def replyArgsInto (name : List Byte) (result : Word) (bs : List Byte) :
    Option (Bool × (List Byte × Word) × List Byte) :=
  match stringInto maxStringSize name bs with
  | none => none
  | some (false, name, r) => some (false, (name, result), r)
  | some (true, name, r) =>
    match r with
    | a :: b :: c :: d :: r => some (true, (name, ofBytes a b c d), r)
    | r => some (false, (name, result), r)

section ReplyArgs

variable {name name' bs r : List Byte} {result : Word}

theorem replyArgsInto_word {w : Word} (h : stringInto maxStringSize name bs = some (true, name', toBytes w ++ r)) :
    replyArgsInto name result bs = some (true, (name', w), r) := by
  rw [replyArgsInto, h]
  show some (true, (name', ofBytes _ _ _ _), r) = _
  rw [ofBytes_toBytes]

theorem replyArgsInto_short (h : stringInto maxStringSize name bs = some (true, name', r)) (hr : r.length < 4) :
    replyArgsInto name result bs = some (false, (name', result), r) := by
  rw [replyArgsInto, h]
  match r with
  | [] | [_] | [_, _] | [_, _, _] => rfl
  | _ :: _ :: _ :: _ :: _ => exact absurd hr (by simp only [List.length_cons]; omega)

theorem replyArgs_into (A : Allocator) (name : List Byte) (result : Word) (c : MemCursor) :
    replyArgs A (memStrm .decode c) ⟨some name, result⟩ =
      match replyArgsInto name result c.ahead with
      | none => .error .outOfBounds
      | some (ok, (name', result'), r) =>
        .ok (ok, ⟨some name', result'⟩, memStrm .decode (c.advance (c.room - r.length))) := by
  unfold replyArgs
  rw [string_into A maxStringSize name c]
  rcases hn : stringInto maxStringSize name c.ahead with _ | ⟨_ | _, name', r⟩
  · rw [replyArgsInto, hn]
    rfl
  · rw [replyArgsInto, hn]
    rfl
  · have hr := stringInto_suffix hn
    have hc := ahead_advance_suffix hr
    simp only [onField_ok, andThen_true]
    obtain hs | ⟨w, r', rfl⟩ := word_cases r
    · rw [uInt_short result (show (c.advance (c.room - r.length)).room < 4 by rw [Cursor.room, hc]; exact hs),
        replyArgsInto_short hn hs]
      rfl
    · have hu := uInt_takes result w _ r' hc
      have hl : (toBytes w ++ r').length ≤ c.room := hr.length_le
      rw [List.length_append, length_toBytes] at hl
      simp only [length_toBytes] at hu
      rw [hu, onField_ok, Cursor.advance_advance, List.length_append, length_toBytes,
        show c.room - (4 + r'.length) + 4 = c.room - r'.length by omega, replyArgsInto_word hn]

theorem replyArgs_puts (A : Allocator) {s : List Byte} (h : 0 ∉ s) (hp : Passes (narrowed s.length) maxStringSize)
    (r : List Byte) (result : Word) :
    Puts (memStrm .encode) (fun X => replyArgs A X ⟨some (s ++ 0 :: r), result⟩) ⟨some (s ++ 0 :: r), result⟩
      (toBytes (narrowed s.length) ++ padded (s.take (narrowed s.length).toNat) ++ toBytes result) :=
  Puts.field (string_puts h hp) rfl <| Puts.last (uInt_puts result) rfl

/-- A name without a NUL in its place is no name to send. -/
theorem replySchema_unterminated {O : Oats} {X : Flexxdr σ} {f : Fault} (hX : X.fOp = .encode)
    (h : strlen name = .error f) :
    callProc (some O.replySchema) X (.reply ⟨some name, result⟩) = .error (.inProc f) := by
  have hargs : replyArgs O.A X ⟨some name, result⟩ = .error f := by
    rw [replyArgs, string_unterminated hX h]
    rfl
  have hcode : O.replySchema.code X (.reply ⟨some name, result⟩) = .error f := by
    show onField (replyArgs O.A X ⟨some name, result⟩) _ = _
    rw [hargs]
    rfl
  rw [callProc_some, hcode]
  rfl

end ReplyArgs

end Cornflakes

import Cornflakes.Examples.Exchange

/-!
# What is delivered

When every `read` takes all that is in its pipe, the server shows the name and the title of the client, and the client
shows the name again, under exactly known conditions on the strings and on the storage of both programs (`delivered_iff`).
As no NUL is stored behind a decoded string, a NUL must be at its end in each buffer already; and a title that does not
fit into the call is not refused but left out, so that it is shown only if it was in the buffer before.
-/

set_option autoImplicit false

namespace Cornflakes.Examples

open Wire Flexrpc

/-- `read` takes all that is there. -/
def wholeRead (k : Nat) (pipe : List Byte) : Prop := k = pipe.length

/-- Both programs can show what the client sent. -/
def Delivered (S : Setting) : Prop :=
  ∃ N, Reaches wholeRead S N ∧ N.client = .shown (some S.name) ∧ N.server = .answered (some S.name, some S.title)

/-- The title fits into the call, behind the name. -/
def TitleFits (name title : List Byte) : Prop := rounded name.length + rounded title.length ≤ 48

instance (name title : List Byte) : Decidable (TitleFits name title) := inferInstanceAs (Decidable (_ ≤ _))

structure Deliverable (S : Setting) : Prop where
  xid : S.ixd.toNat < 2 ^ 32
  serverName : S.server.name[S.name.length]? = some 0
  clientName : S.client.name[S.name.length]? = some 0
  title : if TitleFits S.name S.title then S.server.title[S.title.length]? = some 0 else Holds S.server.title S.title

/-! ## One string -/

section Strings

variable {s sp r : List Byte}

theorem passes_short (h : s.length ≤ 255) : Passes (narrowed s.length) maxStringSize :=
  narrowed_passes (by omega) h

theorem narrowed_short (h : s.length ≤ 255) : (narrowed s.length).toNat = s.length := toNat_narrowed (by omega)

theorem take_padded (s r : List Byte) : (padded s ++ r).take s.length = s := by
  rw [padded, List.append_assoc, List.take_left]

theorem drop_padded (s r : List Byte) : (padded s ++ r).drop (rounded s.length) = r :=
  List.drop_left' (length_padded_eq rfl)

/-- A string that is sent whole is found whole, over the front of the buffer. -/
theorem stringInto_padded (h : s.length ≤ 255) (hl : s.length ≤ sp.length) :
    stringInto maxStringSize sp (toBytes (narrowed s.length) ++ (padded s ++ r)) =
      some (true, s ++ sp.drop s.length, r) := by
  have hp : (padded s ++ r).length = rounded s.length + r.length := by rw [List.length_append, length_padded_eq rfl]
  have hle := le_rounded s.length
  rw [stringInto_word, narrowed_short h, if_neg (not_or.mpr ⟨not_not.mpr (passes_short h), by omega⟩), if_neg (by omega),
    if_neg (by omega), take_padded, drop_padded]

/-- A count alone is refused. -/
theorem stringInto_count (h : s.length ≤ 255) (hr : r.length < s.length) :
    stringInto maxStringSize sp (toBytes (narrowed s.length) ++ r) = some (false, sp, r) := by
  rw [stringInto_word, narrowed_short h, if_pos (Or.inr hr)]

theorem stringPart_whole {room : Nat} (h : s.length ≤ 255) (hr : 4 + rounded s.length ≤ room) :
    stringPart maxStringSize s room = (true, toBytes (narrowed s.length) ++ padded s) := by
  have hle := le_rounded s.length
  have ht : s.take s.length = s := List.take_length
  unfold stringPart
  simp only [narrowed_short h, ht]
  rw [if_neg (by omega), if_neg (not_or.mpr ⟨not_not.mpr (passes_short h), by omega⟩), if_neg (by omega)]

theorem stringPart_count {room : Nat} (h : s.length ≤ 255) (h4 : 4 ≤ room) (hr : room < 4 + s.length) :
    stringPart maxStringSize s room = (false, toBytes (narrowed s.length)) := by
  unfold stringPart
  simp only [narrowed_short h]
  rw [if_neg (by omega), if_pos (Or.inr hr)]

end Strings

/-! ## The arguments -/

section Args

variable {name title nameBuf titleBuf tail : List Byte}

/-- What the arguments of a call are on arrival, with the rest of the buffer behind them. -/
theorem callArgs_arrive (hn : name.length ≤ 35) (ht : title.length ≤ 15) (hnb : nameBuf.length = 36)
    (htb : titleBuf.length = 16) (hl : (callArgsPart name title 56).2.length + tail.length = 56) :
    ∃ ok r, callArgsInto nameBuf titleBuf ((callArgsPart name title 56).2 ++ tail) =
      some (ok, (name ++ nameBuf.drop name.length,
        if TitleFits name title then title ++ titleBuf.drop title.length else titleBuf), r) := by
  have hround : rounded name.length ≤ 36 := by
    unfold rounded
    omega
  have hname : stringPart maxStringSize name 56 = _ := stringPart_whole (by omega) (by omega)
  have hpl : (toBytes (narrowed name.length) ++ padded name).length = 4 + rounded name.length := by
    rw [List.length_append, length_toBytes, length_padded_eq rfl]
  have hpart : callArgsPart name title 56 = ((stringPart maxStringSize title (52 - rounded name.length)).1,
      toBytes (narrowed name.length) ++ padded name ++
        (stringPart maxStringSize title (52 - rounded name.length)).2) := by
    unfold callArgsPart
    rw [hname]
    simp only [hpl, show 56 - (4 + rounded name.length) = 52 - rounded name.length by omega]
  rw [hpart] at hl ⊢
  simp only [List.append_assoc] at hl ⊢
  unfold callArgsInto
  rw [stringInto_padded (by omega) (by omega)]
  by_cases hf : TitleFits name title
  · have hfit : rounded name.length + rounded title.length ≤ 48 := hf
    rw [stringPart_whole (by omega) (by omega), if_pos hf, List.append_assoc]
    simp only
    rw [stringInto_padded (by omega) (by omega)]
    exact ⟨_, _, rfl⟩
  · have hfit : 48 < rounded name.length + rounded title.length := Nat.lt_of_not_le hf
    have hroom : 52 - rounded name.length < 4 + title.length := by
      unfold rounded at hfit ⊢
      omega
    rw [stringPart_count (by omega) (by omega) hroom] at hl ⊢
    rw [if_neg hf]
    simp only [List.length_append, length_toBytes, length_padded_eq rfl] at hl
    dsimp only
    rw [stringInto_count (by omega) (by omega)]
    exact ⟨_, _, rfl⟩

/-- The results of a reply on arrival. -/
theorem replyArgs_arrive (hn : name.length ≤ 35) (hnb : nameBuf.length = 36) (result w : Word) :
    replyArgsInto nameBuf result (toBytes (narrowed name.length) ++ padded name ++ toBytes w ++ tail) =
      some (true, (name ++ nameBuf.drop name.length, w), tail) := by
  rw [List.append_assoc, List.append_assoc]
  exact replyArgsInto_word (stringInto_padded (by omega) (by omega))

end Args

/-! ## The whole exchange -/

section Whole

variable {S : Setting} {shown : Shown} {out s : List Byte}

/-- The bytes behind a call in the buffer of the server. -/
theorem received_whole (h : S.ixd.toNat < 2 ^ 32) : ∃ tail,
    (callArgsPart S.name S.title 56).2.length + tail.length = 56 ∧ (S.received S.wire.length).bytes =
      words (serviceWords (S.ixd.setWidth 32)) ++ ((callArgsPart S.name S.title 56).2 ++ tail) := by
  have hb : (S.received S.wire.length).bytes = S.wire ++ S.server.buf.bytes.drop S.wire.length := by
    show S.wire.take S.wire.length ++ S.server.buf.bytes.drop (S.wire.take S.wire.length).length = _
    rw [List.take_length]
  have hw : S.wire = words (serviceWords (S.ixd.setWidth 32)) ++ (callArgsPart S.name S.title 56).2 := if_pos h
  refine ⟨S.server.buf.bytes.drop S.wire.length, ?_, by rw [hb, hw, List.append_assoc]⟩
  have hl := (S.received S.wire.length).length_bytes
  rw [hb, List.length_append] at hl
  have hwl := congrArg List.length hw
  rw [List.length_append, length_words] at hwl
  simp only [serviceWords, List.length_cons, List.length_nil, bufSize] at hl hwl
  omega

/-- The whole call is one of the service, whatever the server finds in its storage. -/
theorem serverFunc_whole (h : S.ixd.toNat < 2 ^ 32) :
    serverFunc S.serverOats S.server (S.wire.take S.wire.length) = .ok (shown, out) ↔
      Answers S.server (S.received S.wire.length) shown out := by
  obtain ⟨tail, -, hb⟩ := received_whole h
  exact serverFunc_service (Nat.le_trans (List.length_take_le' _ _) S.length_wire_le) hb

/-- The buffer for the title after the whole call. -/
def titleLeft (S : Setting) : List Byte :=
  if TitleFits S.name S.title then S.title ++ S.server.title.drop S.title.length else S.server.title

/-- What the server makes of the whole call. -/
theorem served_whole (h : S.ixd.toNat < 2 ^ 32) (hn : S.name.length ≤ 35) (ht : S.title.length ≤ 15) :
    serverFunc S.serverOats S.server (S.wire.take S.wire.length) = .ok (shown, out) ↔
      ∃ s, Holds (S.name ++ S.server.name.drop S.name.length) s ∧ shown = (some s, printString (titleLeft S)) ∧
        out = answer (S.ixd.setWidth 32) s := by
  obtain ⟨tail, hl, hb⟩ := received_whole h
  obtain ⟨ok, r, ha⟩ := callArgs_arrive hn ht S.server.length_name S.server.length_title hl
  rw [serverFunc_whole h]
  constructor
  · rintro ⟨call, args, name⟩
    obtain ⟨rfl, rfl⟩ := serviceWords_inj (hb.symm.trans call)
    rw [ha] at args
    cases args
    exact ⟨_, name, rfl, rfl⟩
  · rintro ⟨s, name, rfl, rfl⟩
    exact ⟨hb, ha, name⟩

theorem length_answer_le (xid : Word) {s : List Byte} (h : s.length ≤ 35) : (answer xid s).length ≤ bufSize := by
  have hw : (words [xid, MsgType.reply, ReplyStat.msgAccepted, AcceptStat.success]).length = 16 := length_words _
  simp only [answer, List.length_append, hw, length_toBytes, length_padded_eq rfl, rounded, bufSize]
  omega

/-- What the client makes of a whole answer. -/
theorem shows_whole {xid : Word} (hs : s.length ≤ 35) (h : (answer xid s).length ≤ bufSize) {t : Option (List Byte)} :
    Shows S.client (S.replied (answer xid s) h) t ↔ printString (s ++ S.client.name.drop s.length) = t := by
  have hb : (S.replied (answer xid s) h).bytes = words [xid, MsgType.reply, ReplyStat.msgAccepted, AcceptStat.success] ++
      (toBytes (narrowed s.length) ++ padded s ++ toBytes 1 ++
        S.sentBuffer.zeroed.bytes.drop (answer xid s).length) := by
    rw [← List.append_assoc]
    rfl
  have ha : replyArgsInto S.client.name S.client.result (toBytes (narrowed s.length) ++ padded s ++ toBytes 1 ++
      S.sentBuffer.zeroed.bytes.drop (answer xid s).length) = _ :=
    replyArgs_arrive hs S.client.length_name S.client.result 1
  constructor
  · rintro (⟨bytes, args⟩ | ⟨bytes, -, results⟩)
    · rw [words_four] at bytes hb
      obtain ⟨-, -, hr⟩ := two_words_inj (hb.symm.trans bytes)
      obtain ⟨-, -, rfl⟩ := two_words_inj hr
      rw [ha] at args
      cases args
      rfl
    · rw [words_four] at hb
      obtain ⟨-, rfl, rfl⟩ := two_words_inj (hb.symm.trans bytes)
      exact absurd rfl (results _ rfl)
  · rintro rfl
    exact .results hb ha

/-- The buffer of the client after a whole answer. -/
theorem shows_take {k : Nat} (hk : (out.take k).length ≤ bufSize) (h : k = out.length) {t : Option (List Byte)} :
    Shows S.client (S.replied (out.take k) hk) t ↔ ∃ ho : out.length ≤ bufSize, Shows S.client (S.replied out ho) t := by
  have ht : out.take k = out := List.take_of_length_le (Nat.le_of_eq h.symm)
  simp only [ht]
  rw [ht] at hk
  exact ⟨fun hs => ⟨hk, hs⟩, fun ⟨_, hs⟩ => hs⟩

/-- The title is shown when it was sent over the front of a buffer that ends there, or was there before. -/
theorem title_iff (ht : S.title.length ≤ 15) : printString (titleLeft S) = some S.title ↔
    if TitleFits S.name S.title then S.server.title[S.title.length]? = some 0 else Holds S.server.title S.title := by
  rw [printString_iff, titleLeft]
  split
  · exact holds_fill S.title_string (by rw [S.server.length_title]; omega)
  · exact Iff.rfl

end Whole

theorem Deliverable.lengths {S : Setting} (h : Deliverable S) : S.name.length ≤ 35 ∧ S.title.length ≤ 15 := by
  obtain ⟨hn, -⟩ := List.getElem?_eq_some_iff.mp h.serverName
  rw [S.server.length_name] at hn
  refine ⟨by omega, ?_⟩
  have ht := h.title
  split at ht
  · obtain ⟨ht, -⟩ := List.getElem?_eq_some_iff.mp ht
    rw [S.server.length_title] at ht
    omega
  · have hlt := ht.lt
    rw [S.server.length_title] at hlt
    omega

theorem deliverable_of_delivered {S : Setting} (h : Delivered S) : Deliverable S := by
  obtain ⟨N, hr, hc, hs⟩ := h
  cases progress_reaches hr with
  | start => cases hc
  | sent => cases hc
  | answered => cases hc
  | refused => cases hc
  | failed => cases hc
  | @shown j k shown out s pos reads served hk readsBack shows =>
    cases hc
    cases hs
    obtain rfl : j = S.wire.length := reads
    have hx : S.ixd.toNat < 2 ^ 32 := by
      by_contra hx
      rw [wire_nil_iff.mpr hx] at pos
      exact absurd pos (Nat.lt_irrefl 0)
    have answers := (serverFunc_whole hx).mp served
    have hn := answers.name_le rfl
    have ht := answers.title_le rfl
    obtain ⟨t, hname, hshown, rfl⟩ := (served_whole hx hn ht).mp served
    obtain ⟨rfl, htitle⟩ : t = S.name ∧ printString (titleLeft S) = some S.title := by
      rw [Prod.mk.injEq, Option.some_inj] at hshown
      exact ⟨hshown.1.symm, hshown.2.symm⟩
    obtain ⟨ho, hshows⟩ := (shows_take hk readsBack).mp shows
    have hclient := printString_iff.mp ((shows_whole hn ho).mp hshows)
    refine ⟨hx, ?_, ?_, ?_⟩
    · exact (holds_fill S.name_string (by rw [S.server.length_name]; exact Nat.lt_succ_of_le hn)).mp hname
    · exact (holds_fill S.name_string (by rw [S.client.length_name]; exact Nat.lt_succ_of_le hn)).mp hclient
    · exact (title_iff ht).mp htitle

theorem delivered_of_deliverable {S : Setting} (h : Deliverable S) : Delivered S := by
  obtain ⟨hn, ht⟩ := h.lengths
  have hne : S.wire ≠ [] := fun he => wire_nil_iff.mp he h.xid
  have hname := (holds_fill S.name_string (by rw [S.server.length_name]; omega)).mpr h.serverName
  have hclient := (holds_fill S.name_string (by rw [S.client.length_name]; omega)).mpr h.clientName
  have hf : serverFunc S.serverOats S.server (S.wire.take S.wire.length) =
      .ok ((some S.name, some S.title), answer (S.ixd.setWidth 32) S.name) :=
    (served_whole h.xid hn ht).mpr ⟨S.name, hname, by rw [(title_iff ht).mpr h.title], rfl⟩
  have ho := length_answer_le (S.ixd.setWidth 32) hn
  have hk : ((answer (S.ixd.setWidth 32) S.name).take (answer (S.ixd.setWidth 32) S.name).length).length ≤ bufSize := by
    rw [List.take_length]
    exact ho
  have hs := (shows_take hk rfl).mpr ⟨ho, (shows_whole hn ho).mpr (printString_iff.mpr hclient)⟩
  have h₁ : Reaches wholeRead S _ := .step .send .start trivial step_send
  have h₂ : Reaches wholeRead S _ :=
    .step (.serverRead S.wire.length) h₁ rfl (step_serverRead (List.length_pos_iff.mpr hne) (Nat.le_refl _) hf)
  have h₃ : Reaches wholeRead S _ := .step (.clientRead _) h₂ rfl (step_clientRead (Nat.le_refl _) ho hk hs)
  exact ⟨_, h₃, rfl, rfl⟩

/-- **Both programs show what the client sent exactly under these conditions.** -/
theorem delivered_iff (S : Setting) : Delivered S ↔ Deliverable S :=
  ⟨deliverable_of_delivered, delivered_of_deliverable⟩

end Cornflakes.Examples

import Mathlib.Tactic.IntervalCases
import Cornflakes.Examples.Client

/-!
# The exchange of the two programs

The client and the server with two pipes between them. The programs go on in any order; a `read` takes any of the bytes
that are in its pipe, and none when the other program is gone. The reachable states (`Reaches`) are known (`Progress`):

- `shown_answered`: what the client shows was made of eight or more bytes of an answer of the server; a client whose
  server is gone, or that gets fewer bytes, decodes a call and stops;
- `stuck_iff`: both programs wait for ever in some run if and only if the transaction id does not fit in a word.
-/

set_option autoImplicit false

namespace Cornflakes.Examples

open Wire Flexrpc

/-- Two programs, what they find in their storage, and the call that the client makes. -/
structure Setting where
  clientOats : Oats
  serverOats : Oats
  client : ClientStorage
  server : ServerStorage
  name : List Byte
  title : List Byte
  ixd : ULong
  name_string : 0 ∉ name
  title_string : 0 ∉ title

inductive ClientPhase
  | starting
  | waiting (flexxdrs : Flexxdr FlexxdrMem)
  | shown (s : Option (List Byte))
  | stopped (f : Fault)

inductive ServerPhase
  | waiting
  | answered (shown : Shown)
  | stopped (f : Fault)

/-- The programs and the bytes that are on their way. -/
structure Net where
  client : ClientPhase
  server : ServerPhase
  toServer : List Byte
  toClient : List Byte

inductive Event
  | send
  | serverRead (k : Nat)
  | clientRead (k : Nat)

/-- The program is gone, and its end of the connection is closed. -/
def ClientPhase.gone : ClientPhase → Bool
  | .shown _ | .stopped _ => true
  | _ => false

def ServerPhase.gone : ServerPhase → Bool
  | .waiting => false
  | _ => true

/-- The `k` bytes that `read` takes from a pipe, and what stays in it. -/
def taken (pipe : List Byte) (gone : Bool) (k : Nat) : Option (List Byte × List Byte) :=
  if (0 < k ∨ gone) ∧ k ≤ pipe.length ∧ k ≤ bufSize then some (pipe.take k, pipe.drop k) else none

/-- What the client does with its call. -/
def Net.sent (N : Net) : Except Fault (Flexxdr FlexxdrMem) → Net
  | .ok flexxdrs => { N with client := .waiting flexxdrs, toServer := N.toServer ++ written flexxdrs }
  | .error f => { N with client := .stopped f }

/-- What the server does with a call. -/
def Net.served (N : Net) : Except Fault (Shown × List Byte) → Net
  | .ok (shown, out) => { N with server := .answered shown, toClient := N.toClient ++ out }
  | .error f => { N with server := .stopped f }

/-- What the client does with an answer. -/
def Net.received (N : Net) : Except Fault (Option (List Byte)) → Net
  | .ok s => { N with client := .shown s }
  | .error f => { N with client := .stopped f }

def step (S : Setting) (N : Net) : Event → Option Net
  | .send =>
    match N.client with
    | .starting => some (N.sent (clientSend S.clientOats S.client (S.name ++ [0]) (S.title ++ [0]) S.ixd))
    | _ => none
  | .serverRead k =>
    match N.server with
    | .waiting => (taken N.toServer N.client.gone k).map fun (bs, rest) =>
        { N with toServer := rest }.served (serverFunc S.serverOats S.server bs)
    | _ => none
  | .clientRead k =>
    match N.client with
    | .waiting flexxdrs => (taken N.toClient N.server.gone k).map fun (bs, rest) =>
        { N with toClient := rest }.received (clientReceive S.clientOats S.client flexxdrs bs)
    | _ => none

/-- Both programs are connected, and nothing was sent. -/
def start : Net := ⟨.starting, .waiting, [], []⟩

/-- The reads of an event are such that `ok`. -/
def Event.Reads (ok : Nat → List Byte → Prop) (N : Net) : Event → Prop
  | .send => True
  | .serverRead k => ok k N.toServer
  | .clientRead k => ok k N.toClient

/-- The states that are reached by events whose reads are such that `ok`. -/
inductive Reaches (ok : Nat → List Byte → Prop) (S : Setting) : Net → Prop
  | start : Reaches ok S start
  | step {N N' : Net} (e : Event) (before : Reaches ok S N) (reads : e.Reads ok N) (step : step S N e = some N') :
      Reaches ok S N'

/-- `read` may return early. -/
def anyRead (_ : Nat) (_ : List Byte) : Prop := True

theorem Reaches.weaken {ok ok' : Nat → List Byte → Prop} {S : Setting} {N : Net} (h : Reaches ok S N)
    (hok : ∀ k pipe, ok k pipe → ok' k pipe) : Reaches ok' S N := by
  induction h with
  | start => exact .start
  | @step N N' e _ hr hs ih =>
    refine .step e ih ?_ hs
    cases e with
    | send => exact trivial
    | serverRead k => exact hok _ _ hr
    | clientRead k => exact hok _ _ hr

/-! ## The call -/

namespace Setting

variable (S : Setting)

/-- The bytes that the client sends. -/
def wire : List Byte := if S.ixd.toNat < 2 ^ 32 then callWire (S.ixd.setWidth 32) S.name S.title else []

theorem length_wire_le : S.wire.length ≤ bufSize := by
  unfold wire
  split
  · exact length_callWire_le _ _ _
  · exact Nat.zero_le _

/-- The handle of the client afterwards, and its buffer. -/
def handle : Flexxdr FlexxdrMem := memStrm .encode (S.client.buf.start.write S.wire)

def sentBuffer : Buffer := S.client.buf.fill S.wire S.length_wire_le

theorem clientSend_handle :
    clientSend S.clientOats S.client (S.name ++ [0]) (S.title ++ [0]) S.ixd = .ok S.handle := by
  unfold handle wire
  by_cases h : S.ixd.toNat < 2 ^ 32
  · rw [if_pos h]
    exact clientSend_fits S.name_string S.title_string h
  · rw [if_neg h, Cursor.write_nil]
    exact clientSend_refused h

theorem written_handle : written S.handle = S.wire := Buffer.written_write _ _ _

/-- The buffer of the server after a read of the first `j` bytes. -/
def received (j : Nat) : Buffer :=
  S.server.buf.fill (S.wire.take j) (Nat.le_trans (List.length_take_le' _ _) S.length_wire_le)

/-- The buffer of the client after a read. -/
def replied (bs : List Byte) (h : bs.length ≤ bufSize) : Buffer := S.sentBuffer.zeroed.fill bs h

theorem clientReceive_replied {bs : List Byte} (h : bs.length ≤ bufSize) (s : Option (List Byte)) :
    clientReceive S.clientOats S.client S.handle bs = .ok s ↔ Shows S.client (S.replied bs h) s :=
  clientReceive_iff _ _ (Buffer.cells_write _ S.length_wire_le) _ h s

end Setting

theorem taken_eq {pipe : List Byte} {gone : Bool} {k : Nat} (h : 0 < k ∨ gone = true) (hl : k ≤ pipe.length)
    (hk : k ≤ bufSize) : taken pipe gone k = some (pipe.take k, pipe.drop k) := if_pos ⟨h, hl, hk⟩

theorem taken_some {pipe bs rest : List Byte} {gone : Bool} {k : Nat} (h : taken pipe gone k = some (bs, rest)) :
    (0 < k ∨ gone = true) ∧ k ≤ pipe.length ∧ k ≤ bufSize ∧ bs = pipe.take k ∧ rest = pipe.drop k := by
  unfold taken at h
  split at h
  next hk =>
    cases h
    exact ⟨hk.1, hk.2.1, hk.2.2, rfl, rfl⟩
  next => cases h

/-! ## The reachable states -/

/-- How far the exchange has come. -/
inductive Progress (ok : Nat → List Byte → Prop) (S : Setting) : Net → Prop
  | start : Progress ok S start
  | sent : Progress ok S ⟨.waiting S.handle, .waiting, S.wire, []⟩
  | answered {j : Nat} {shown : Shown} {out : List Byte} (pos : 0 < j) (reads : ok j S.wire)
      (served : serverFunc S.serverOats S.server (S.wire.take j) = .ok (shown, out)) :
      Progress ok S ⟨.waiting S.handle, .answered shown, S.wire.drop j, out⟩
  | refused {j : Nat} (f : Fault) : Progress ok S ⟨.waiting S.handle, .stopped f, S.wire.drop j, []⟩
  | shown {j k : Nat} {shown : Shown} {out : List Byte} {s : Option (List Byte)} (pos : 0 < j) (reads : ok j S.wire)
      (served : serverFunc S.serverOats S.server (S.wire.take j) = .ok (shown, out))
      (hk : (out.take k).length ≤ bufSize) (readsBack : ok k out)
      (shows : Shows S.client (S.replied (out.take k) hk) s) :
      Progress ok S ⟨.shown s, .answered shown, S.wire.drop j, out.drop k⟩
  | failed {server : ServerPhase} {toServer toClient : List Byte} (f : Fault) (gone : server.gone = true) :
      Progress ok S ⟨.stopped f, server, toServer, toClient⟩

section Steps

variable {ok : Nat → List Byte → Prop} {S : Setting} {N N' : Net}

theorem step_send : step S start .send = some ⟨.waiting S.handle, .waiting, S.wire, []⟩ := by
  simp only [step, start, S.clientSend_handle, Net.sent, S.written_handle]
  rfl

theorem step_serverRead {k : Nat} {shown : Shown} {out : List Byte} (h : 0 < k) (hk : k ≤ S.wire.length)
    (hf : serverFunc S.serverOats S.server (S.wire.take k) = .ok (shown, out)) :
    step S ⟨.waiting S.handle, .waiting, S.wire, []⟩ (.serverRead k) =
      some ⟨.waiting S.handle, .answered shown, S.wire.drop k, out⟩ := by
  simp only [step, taken_eq (Or.inl h) hk (Nat.le_trans hk S.length_wire_le), Option.map_some, hf, Net.served]
  rfl

theorem step_clientRead {k : Nat} {shown : Shown} {toServer out : List Byte} {s : Option (List Byte)}
    (hl : k ≤ out.length) (hk : k ≤ bufSize) (ht : (out.take k).length ≤ bufSize)
    (h : Shows S.client (S.replied (out.take k) ht) s) :
    step S ⟨.waiting S.handle, .answered shown, toServer, out⟩ (.clientRead k) =
      some ⟨.shown s, .answered shown, toServer, out.drop k⟩ := by
  have hf := (S.clientReceive_replied ht s).mpr h
  simp only [step, taken_eq (Or.inr (show (ServerPhase.answered shown).gone = true from rfl)) hl hk, Option.map_some, hf,
    Net.received]

/-- Before its eighth byte an answer leaves the direction of a call in the buffer, with which the client cleared it. -/
theorem take_direction (w : Word) (q r : List Byte) {k : Nat} (hk : k ≤ 7) : ∃ x,
    (toBytes w ++ 0 :: 0 :: 0 :: q).take k ++ (List.replicate 8 0 ++ r).drop k = words [x, MsgType.call] ++ r := by
  have hl : ((toBytes w).take k ++ (List.replicate 4 0).drop k).length = 4 := by
    rw [List.length_append, List.length_take, List.length_drop, length_toBytes, List.length_replicate]
    omega
  obtain ⟨x, hx⟩ := exists_toBytes hl
  refine ⟨x, ?_⟩
  show _ = toBytes x ++ (List.replicate 4 0 ++ r)
  rw [← hx]
  interval_cases k
  all_goals rfl

theorem not_shows_short {w : Word} {q bs : List Byte} {k : Nat} (hbs : bs = (toBytes w ++ 0 :: 0 :: 0 :: q).take k)
    (hk : k ≤ 7) (h : bs.length ≤ bufSize) (s : Option (List Byte)) : ¬ Shows S.client (S.replied bs h) s := by
  have hl : bs.length = k := by
    rw [hbs, List.length_take_of_le]
    rw [List.length_append, length_toBytes]
    simp only [List.length_cons]
    omega
  obtain ⟨x, hx⟩ := take_direction w q (S.sentBuffer.bytes.drop 8) hk
  have hb : (S.replied bs h).bytes = words [x, MsgType.call] ++ S.sentBuffer.bytes.drop 8 := by
    rw [← hx, ← hbs, ← hl]
    rfl
  exact not_shows_call hb s

theorem progress_step (e : Event) (h : Progress ok S N) (hr : e.Reads ok N) (hs : step S N e = some N') :
    Progress ok S N' := by
  cases h with
  | start =>
    cases e with
    | send =>
      simp only [step, start, Option.some.injEq] at hs
      subst hs
      rw [S.clientSend_handle, Net.sent, S.written_handle]
      exact .sent
    | serverRead k =>
      obtain ⟨⟨bs, rest⟩, ht, -⟩ := Option.map_eq_some_iff.mp hs
      obtain ⟨hk, hl, -⟩ := taken_some ht
      rcases hk with hk | hg
      · exact absurd hl (Nat.not_le.mpr hk)
      · cases hg
    | clientRead k => cases hs
  | sent =>
    cases e with
    | send => cases hs
    | serverRead k =>
      obtain ⟨⟨bs, rest⟩, ht, rfl⟩ := Option.map_eq_some_iff.mp hs
      obtain ⟨hk, -, -, rfl, rfl⟩ := taken_some ht
      have hpos : 0 < k := hk.resolve_right (by rintro ⟨⟩)
      simp only
      cases hf : serverFunc S.serverOats S.server (S.wire.take k) with
      | error f => exact .refused f
      | ok o => exact .answered hpos hr hf
    | clientRead k =>
      obtain ⟨⟨bs, rest⟩, ht, -⟩ := Option.map_eq_some_iff.mp hs
      obtain ⟨hk, hl, -⟩ := taken_some ht
      rcases hk with hk | hg
      · exact absurd hl (Nat.not_le.mpr hk)
      · cases hg
  | @answered j shown out pos reads served =>
    cases e with
    | send => cases hs
    | serverRead k => cases hs
    | clientRead k =>
      obtain ⟨⟨bs, rest⟩, ht, rfl⟩ := Option.map_eq_some_iff.mp hs
      obtain ⟨-, -, hle, rfl, rfl⟩ := taken_some ht
      have hl : (out.take k).length ≤ bufSize := Nat.le_trans (List.length_take_le _ _) hle
      simp only
      cases hf : clientReceive S.clientOats S.client S.handle (out.take k) with
      | error f => exact .failed f rfl
      | ok s => exact .shown pos reads served hl hr ((S.clientReceive_replied hl s).mp hf)
  | @refused j f =>
    cases e with
    | send => cases hs
    | serverRead k => cases hs
    | clientRead k =>
      obtain ⟨⟨bs, rest⟩, ht, rfl⟩ := Option.map_eq_some_iff.mp hs
      obtain ⟨-, hl, -, rfl, rfl⟩ := taken_some ht
      have hk : k = 0 := Nat.le_zero.mp hl
      subst hk
      simp only
      cases hf : clientReceive S.clientOats S.client S.handle ([].take 0) with
      | error f => exact .failed f rfl
      | ok s => exact absurd ((S.clientReceive_replied (Nat.zero_le _) s).mp hf) (not_shows_short (w := 0) (q := []) rfl (Nat.zero_le _) _ s)
  | shown pos reads served hk readsBack shows =>
    cases e with
    | send => cases hs
    | serverRead k => cases hs
    | clientRead k => cases hs
  | @failed server toServer toClient f gone =>
    cases e with
    | send => cases hs
    | serverRead k =>
      cases server with
      | waiting => cases gone
      | answered shown => cases hs
      | stopped f => cases hs
    | clientRead k => cases hs

theorem progress_reaches (h : Reaches ok S N) : Progress ok S N := by
  induction h with
  | start => exact .start
  | step e _ hr hs ih => exact progress_step e ih hr hs

/-- No event can take place, and the client is not gone. -/
def Stuck (S : Setting) (N : Net) : Prop := (∀ e, step S N e = none) ∧ N.client.gone = false

theorem wire_nil_iff : S.wire = [] ↔ ¬ S.ixd.toNat < 2 ^ 32 := by
  unfold Setting.wire
  split
  next h =>
    refine iff_of_false (fun he => ?_) (not_not.mpr h)
    have hl := congrArg List.length he
    rw [callWire, List.length_append, length_words] at hl
    simp only [serviceWords, List.length_cons, List.length_nil] at hl
    omega
  next h => exact iff_of_true rfl h

/-- A client whose server is gone goes on. -/
theorem not_stuck_gone {server : ServerPhase} {toServer toClient : List Byte} (h : server.gone = true) :
    ¬ Stuck S ⟨.waiting S.handle, server, toServer, toClient⟩ := by
  intro hs
  have hr := hs.1 (.clientRead 0)
  simp only [step, h, taken_eq (Or.inr rfl) (Nat.zero_le _) (Nat.zero_le _)] at hr
  cases hr

/-- **The programs wait for ever exactly when the transaction id does not fit in a word.** -/
theorem stuck_iff (S : Setting) : (∃ N, Reaches anyRead S N ∧ Stuck S N) ↔ 2 ^ 32 ≤ S.ixd.toNat := by
  constructor
  · rintro ⟨N, hr, hs⟩
    cases progress_reaches hr with
    | start => cases hs.1 .send
    | sent =>
      by_contra hlt
      have hne : S.wire ≠ [] := fun h => wire_nil_iff.mp h (Nat.lt_of_not_le hlt)
      have hread := hs.1 (.serverRead 1)
      have ht : taken S.wire (ClientPhase.waiting S.handle).gone 1 = some (S.wire.take 1, S.wire.drop 1) :=
        taken_eq (Or.inl Nat.one_pos) (List.length_pos_iff.mpr hne) (by decide)
      simp only [step, ht] at hread
      cases hread
    | answered pos reads served => exact absurd hs (not_stuck_gone rfl)
    | refused f => exact absurd hs (not_stuck_gone rfl)
    | shown => cases hs.2
    | failed => cases hs.2
  · intro h
    have hw : S.wire = [] := wire_nil_iff.mpr (Nat.not_lt.mpr h)
    refine ⟨_, .step .send .start trivial step_send, fun e => ?_, rfl⟩
    have hnone (k : Nat) : taken [] false k = none := by
      refine if_neg fun h => ?_
      rcases h.1 with hk | hg
      · exact absurd h.2.1 (Nat.not_le.mpr hk)
      · cases hg
    cases e with
    | send => rfl
    | serverRead k =>
      show (taken S.wire false k).map _ = none
      rw [hw, hnone]
      rfl
    | clientRead k =>
      show (taken [] false k).map _ = none
      rw [hnone]
      rfl

end Steps

end Cornflakes.Examples

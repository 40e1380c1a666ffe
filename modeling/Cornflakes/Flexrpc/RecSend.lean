import Cornflakes.Flexrpc.RecInv

/-!
# Sending records

A record is written by `putlong` and `putbytes` and closed by `endofrecord`. `Sends` says that all of these return TRUE
and that the bytes handed to `writeit` are the records in record marking. The last `endofrecord` asks for the bytes to
be sent, which `flush_out` never reports as done, so it holds only where there is nothing to send (`sends_iff`).
`Flushes` is what a single `flush_out` is for, and it meets that in no state (`not_flushes`).
-/

set_option autoImplicit false

namespace Cornflakes.Flexrpc

open Wire

variable {ρ ω : Type}

/-- A call that adds to a record. -/
inductive PutOp
  | putlong (lp : ULong)
  | putbytes (addr : List Byte) (h : addr.length < 2 ^ 32)

namespace PutOp

def op : PutOp → RecOp
  | putlong lp => .putlong lp
  | putbytes addr h => .putbytes addr h

/-- The bytes that it adds. -/
def bytes : PutOp → List Byte
  | putlong lp => toBytes (lp.setWidth 32)
  | putbytes addr _ => addr

end PutOp

/-- A record to be sent: the calls that write it, and the argument of `endofrecord`. -/
structure OutRecord where
  puts : List PutOp
  sendnow : Bool

namespace OutRecord

def ops (r : OutRecord) : List RecOp := r.puts.map PutOp.op ++ [.endofrecord r.sendnow]

def payload (r : OutRecord) : List Byte := r.puts.flatMap PutOp.bytes

end OutRecord

/-- The stream after a call that returned TRUE. -/
def trueStep (T : Transport ρ ω) (s : RecStrm ρ ω) (o : RecOp) : Option (RecStrm ρ ω) :=
  match o.call 0 T s with
  | some (.bool true, s') => some s'
  | _ => none

/-- Every call returns TRUE, and the bytes handed to `writeit` mark the records. -/
def Sends (T : Transport ρ ω) (s : RecStrm ρ ω) (rs : List OutRecord) : Prop :=
  ∃ s', run (trueStep T) s (rs.flatMap OutRecord.ops) = some s' ∧ Marks (rs.map OutRecord.payload) s'.sent.flatten

/-! ## One flush -/

/-- The header counts the payload, `writeit` is handed what lies between `out_base` and `out_finger`, TRUE says that it
took all of it, and then the next fragment starts at `out_base`. -/
structure Flushes (T : Transport ρ ω) (s : RecStrm ρ ω) (eor : Bool) : Prop where
  counts : (flushOut T s eor).2.mem.load s.fragHeader 4 =
    toBytes (header eor (s.outFinger - s.fragHeader - 4).toNat)
  hands : (flushOut T s eor).2.sent =
    s.sent ++ [(flushOut T s eor).2.mem.load s.outBase (s.outFinger - s.outBase).toNat]
  reports : ∀ block, (flushOut T s eor).2.sent = s.sent ++ [block] →
    ((flushOut T s eor).1 = true ↔ (T.writeit s.writer block).1 = s.outFinger - s.outBase)
  resets : (flushOut T s eor).1 = true →
    (flushOut T s eor).2.fragHeader = s.outBase ∧ (flushOut T s eor).2.outFinger = s.outBase + 4

/-- The header that is stored: the count is taken in words, and four too small. -/
theorem flushOut_header (T : Transport ρ ω) (s : RecStrm ρ ω) (eor : Bool) :
    (flushOut T s eor).2.mem.load s.fragHeader 4 =
      toBytes (BitVec.ofInt 32 ((s.outFinger - s.fragHeader) / 4 - 4) ||| if eor then lastFragBit else 0) :=
  Heap.load_store_same s.mem s.fragHeader
    (toBytes (BitVec.ofInt 32 ((s.outFinger - s.fragHeader) / 4 - 4) ||| if eor then lastFragBit else 0))

/-- The block that is handed to `writeit`: one word, the one after what is pending. -/
theorem flushOut_sent (T : Transport ρ ω) (s : RecStrm ρ ω) (eor : Bool) :
    (flushOut T s eor).2.sent = s.sent ++ [(flushOut T s eor).2.mem.load s.outFinger 4] := rfl

/-- The block is as long as what is pending only where that is a header alone, and there the count is wrong. -/
theorem not_flushes (T : Transport ρ ω) (s : RecStrm ρ ω) (eor : Bool) (hb : s.outBase ≤ s.fragHeader)
    (hf : s.fragHeader + 4 ≤ s.outFinger) : ¬ Flushes T s eor := by
  intro h
  have hl := (flushOut_sent T s eor).symm.trans h.hands
  replace hl := congrArg List.length (List.singleton_inj.mp (List.append_cancel_left hl))
  rw [Heap.length_load, Heap.length_load] at hl
  have hc := toBytes_inj ((flushOut_header T s eor).symm.trans h.counts)
  rw [show s.outFinger - s.fragHeader = 4 by omega] at hc
  cases eor with
  | true => exact absurd hc (by decide)
  | false => exact absurd hc (by decide)

/-! ## Records -/

/-- A record that is to be sent now is never reported as sent. -/
theorem endofrecord_now (T : Transport ρ ω) (s : RecStrm ρ ω) : (flexxdrrecEndofrecord T s true).1 = false := by
  unfold flexxdrrecEndofrecord
  rw [if_pos (Or.inl rfl)]
  rfl

theorem trueStep_now (T : Transport ρ ω) (s : RecStrm ρ ω) : trueStep T s (.endofrecord true) = none := by
  have h := endofrecord_now T s
  rcases hr : flexxdrrecEndofrecord T s true with ⟨ok, s'⟩
  rw [hr] at h
  subst h
  simp only [trueStep, RecOp.call, hr]

theorem not_sends (T : Transport ρ ω) (s : RecStrm ρ ω) {rs : List OutRecord} (hne : rs ≠ [])
    (hlast : ∀ r, rs.getLast? = some r → r.sendnow = true) : ¬ Sends T s rs := by
  rintro ⟨s', hr, -⟩
  have hnow := hlast _ (List.getLast?_eq_some_getLast hne)
  rw [← List.dropLast_append_getLast hne, List.flatMap_append, List.flatMap_singleton, OutRecord.ops, hnow,
    ← List.append_assoc, run_append, Option.bind_eq_some_iff] at hr
  obtain ⟨s₁, -, h₁⟩ := hr
  rw [run, trueStep_now] at h₁
  cases h₁

/-- Records are sent in record marking exactly when there are none. -/
theorem sends_iff (T : Transport ρ ω) (sendsize recvsize : Word) (buf : Int) (mem : Heap Byte)
    (reader : ρ) (writer : ω) (locals : Nat → Word) (rs : List OutRecord)
    (hlast : ∀ r, rs.getLast? = some r → r.sendnow = true) :
    Sends T (flexxdrrecCreate sendsize recvsize buf mem reader writer locals) rs ↔ rs = [] := by
  constructor
  · intro h
    by_contra hne
    exact not_sends T _ hne hlast h
  · rintro rfl
    refine ⟨_, rfl, [], rfl, rfl, ?_⟩
    intro ps hps
    cases hps

/-- A transport that takes all that it is given. -/
def sink : Transport Unit Unit where
  readit _ _ := ([], 0, ())
  length_readit _ n := Nat.zero_le n
  writeit _ bs := (bs.length, ())

/-- A record of one word. -/
def wordRecord : OutRecord := ⟨[.putlong 7], true⟩

theorem sends_iff_word :
    Sends sink (flexxdrrecCreate 0 0 0 (fun _ => 0) () () fun _ => 0) [wordRecord] ↔ [wordRecord] = [] := by
  refine sends_iff sink 0 0 0 (fun _ => 0) () () (fun _ => 0) [wordRecord] ?_
  intro r hr
  cases hr
  rfl

/-- A new stream; its `out_finger` is 16 bytes past the header. -/
def newStream : RecStrm Unit Unit := flexxdrrecCreate 0 0 0 (fun _ => 0) () () fun _ => 0

theorem not_flushes_new : ¬ Flushes sink newStream true := not_flushes sink newStream true (by decide) (by decide)

/-- Sixteen bytes are pending, `writeit` is handed four and takes them, and FALSE is returned. -/
theorem flush_misses : newStream.outBase ≤ newStream.fragHeader ∧ newStream.fragHeader + 4 ≤ newStream.outFinger ∧
    newStream.outFinger ≤ newStream.outBoundary ∧ ¬ Flushes sink newStream true := by
  refine ⟨by decide, by decide, by decide, fun h => ?_⟩
  have hs := (flushOut_sent sink newStream true).symm.trans h.hands
  have hl := congrArg List.length (List.singleton_inj.mp (List.append_cancel_left hs))
  rw [Heap.length_load, Heap.length_load] at hl
  exact absurd hl (by decide)

theorem word_not_sent : ¬ Sends sink (flexxdrrecCreate 0 0 0 (fun _ => 0) () () fun _ => 0) [wordRecord] := by
  refine not_sends sink _ (by intro h; cases h) ?_
  intro r hr
  cases hr
  rfl

end Cornflakes.Flexrpc

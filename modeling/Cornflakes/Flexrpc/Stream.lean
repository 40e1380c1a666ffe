import Cornflakes.Wire.BigEndian
import Cornflakes.Wire.Codec

/-!
# FLEXXDR handles (`flexxdr.h`)

A handle `Flexxdr σ` is an operation, a table of stream operations, and the stream state `σ` that the table's entries
work on (what `f_private`, `f_base` and `f_handy` reach). A table need not fill every entry; calling through an empty
one is a `Fault`, as are the other things the C code can do that have no defined result. A codec takes the handle and
the object it works on and, unless it faults, gives an `Outcome`: the boolean it returns and both of them afterwards.
-/

set_option autoImplicit false

namespace Cornflakes.Flexrpc

open Wire

/-- `unsigned long` and `long`. -/
abbrev ULong := BitVec 64

/-- `enum flexxdr_op`. -/
inductive FlexxdrOp
  | encode
  | decode
  | free
deriving DecidableEq, Repr

/-- Executions that never return: what the C code does there is undefined. -/
inductive Fault
  /-- A call through an entry that the table of operations does not fill. -/
  | nullOp
  /-- An access outside the buffer of a stream, or past the end of a table. -/
  | outOfBounds
  /-- The length of a string in a place that has no NUL. -/
  | unterminated
  /-- A call through `ar_results.proc` when the place holds no procedure. -/
  | wildProc
  /-- An access of a procedure to its object through a pointer that points to none. -/
  | wildWhere
  /-- A call through a schema that the registry does not have. -/
  | absentSchema
  /-- A fault of code that was called through a pointer. -/
  | inProc (f : Fault)
deriving DecidableEq, Repr

/-- `struct flexxdr_ops`. A getter gives `none` for FALSE and the value it stored for TRUE; `fGetbytes` gives the
bytes it stored, and `fPutbytes` takes what the object at `addr` holds and how much of it to send. `load` and `store`
are the accesses through the pointer that `fInline` returned. -/
structure FlexxdrOps (σ : Type) where
  fGetlong : Option (σ → Except Fault (Option ULong × σ))
  fPutlong : Option (ULong → σ → Except Fault (Bool × σ))
  fGetbytes : Option (BitVec 32 → σ → Except Fault (Bool × List Byte × σ))
  fPutbytes : Option (List Byte → BitVec 32 → σ → Except Fault (Bool × σ))
  fGetpostn : Option (σ → BitVec 32)
  fSetpostn : Option (BitVec 32 → σ → Bool × σ)
  fInline : Option (BitVec 32 → σ → Option Nat × σ)
  load : σ → Nat → Except Fault Word
  store : σ → Nat → Word → Except Fault σ

/-- `struct FLEXXDR`. -/
structure Flexxdr (σ : Type) where
  fOp : FlexxdrOp
  fOps : FlexxdrOps σ
  strm : σ

/-- What a codec that returns gives: its result, the object and the handle afterwards. -/
abbrev Outcome (σ α : Type) := Bool × α × Flexxdr σ

/-- A procedure pointer that is not NULL: its address and the code there. `code` is what it does with the object that
its argument points to, and `stray` with an argument that points to none, such as NULL, which it need not look at. -/
structure FlexxdrProc (σ α : Type) where
  addr : ULong
  code : Flexxdr σ → α → Except Fault (Outcome σ α)
  stray : Flexxdr σ → ULong → Except Fault (Outcome σ Unit) := fun _ _ => .error .wildWhere

variable {σ α : Type}

/-! ## Calls through the table -/

/-- `FLEXXDR_GETLONG`. -/
def flexxdrGetlong (X : Flexxdr σ) : Except Fault (Option ULong × Flexxdr σ) :=
  match X.fOps.fGetlong with
  | none => .error .nullOp
  | some f => do
    let (l, s) ← (f X.strm).mapError .inProc
    return (l, { X with strm := s })

/-- `FLEXXDR_PUTLONG`. -/
def flexxdrPutlong (X : Flexxdr σ) (lp : ULong) : Except Fault (Bool × Flexxdr σ) :=
  match X.fOps.fPutlong with
  | none => .error .nullOp
  | some f => do
    let (ok, s) ← (f lp X.strm).mapError .inProc
    return (ok, { X with strm := s })

/-- `FLEXXDR_GETBYTES`. -/
def flexxdrGetbytes (X : Flexxdr σ) (len : BitVec 32) : Except Fault (Bool × List Byte × Flexxdr σ) :=
  match X.fOps.fGetbytes with
  | none => .error .nullOp
  | some f => do
    let (ok, bs, s) ← (f len X.strm).mapError .inProc
    return (ok, bs, { X with strm := s })

/-- `FLEXXDR_PUTBYTES`. -/
def flexxdrPutbytes (X : Flexxdr σ) (addr : List Byte) (len : BitVec 32) : Except Fault (Bool × Flexxdr σ) :=
  match X.fOps.fPutbytes with
  | none => .error .nullOp
  | some f => do
    let (ok, s) ← (f addr len X.strm).mapError .inProc
    return (ok, { X with strm := s })

/-- `FLEXXDR_GETPOS`. -/
def flexxdrGetpos (X : Flexxdr σ) : Except Fault (BitVec 32) :=
  match X.fOps.fGetpostn with
  | none => .error .nullOp
  | some f => .ok (f X.strm)

/-- `FLEXXDR_SETPOS`. -/
def flexxdrSetpos (X : Flexxdr σ) (pos : BitVec 32) : Except Fault (Bool × Flexxdr σ) :=
  match X.fOps.fSetpostn with
  | none => .error .nullOp
  | some f => let (ok, s) := f pos X.strm; .ok (ok, { X with strm := s })

/-- `FLEXXDR_INLINE`. -/
def flexxdrInline (X : Flexxdr σ) (len : BitVec 32) : Except Fault (Option Nat × Flexxdr σ) :=
  match X.fOps.fInline with
  | none => .error .nullOp
  | some f => let (buf, s) := f len X.strm; .ok (buf, { X with strm := s })

/-- `IFLEXXDR_GET_LONG`: the word at `buf`, widened without its sign, and the pointer after it. -/
def iflexxdrGetLong (X : Flexxdr σ) (buf : Nat) : Except Fault (ULong × Nat) := do
  let w ← (X.fOps.load X.strm buf).mapError .inProc
  return (w.setWidth 64, buf + 4)

/-- `IFLEXXDR_PUT_LONG`: the low 32 bits of `v` at `buf`, and the pointer after them. -/
def iflexxdrPutLong (X : Flexxdr σ) (buf : Nat) (v : ULong) : Except Fault (Nat × Flexxdr σ) := do
  let s ← (X.fOps.store X.strm buf (v.setWidth 32)).mapError .inProc
  return (buf + 4, { X with strm := s })

/-! ## Calls through a procedure pointer -/

/-- A call through a procedure pointer; NULL has no code to run. -/
def callProc (proc : Option (FlexxdrProc σ α)) (X : Flexxdr σ) (a : α) : Except Fault (Outcome σ α) :=
  match proc with
  | none => .error .absentSchema
  | some p => (p.code X a).mapError .inProc

theorem callProc_some (p : FlexxdrProc σ α) (X : Flexxdr σ) (a : α) :
    callProc (some p) X a = (p.code X a).mapError .inProc := rfl

theorem callProc_ok {p : FlexxdrProc σ α} {X : Flexxdr σ} {a : α} {o : Outcome σ α} (h : p.code X a = .ok o) :
    callProc (some p) X a = .ok o := by
  rw [callProc_some, h]
  rfl

/-- A call that returns has code to run. -/
theorem exists_of_callProc {proc : Option (FlexxdrProc σ α)} {X : Flexxdr σ} {a : α} {o : Outcome σ α}
    (h : callProc proc X a = .ok o) : ∃ p, proc = some p ∧ p.code X a = .ok o := by
  cases proc with
  | none => cases h
  | some p =>
    refine ⟨p, rfl, ?_⟩
    rw [callProc_some] at h
    rcases hc : p.code X a with f | o'
    · rw [hc] at h
      cases h
    · rw [hc] at h
      cases h
      rfl

theorem returns_callProc (p : FlexxdrProc σ α) (X : Flexxdr σ) (a : α) (b : Bool) :
    Returns (callProc (some p) X a) b ↔ Returns (p.code X a) b := by
  rw [callProc_some]
  rcases p.code X a with f | o
  · exact iff_of_false (not_returns_error _ b) (not_returns_error f b)
  · exact Iff.rfl

/-! ## Faults -/

/-- The faults that using a stream can have. -/
def Fault.OfStream (f : Fault) : Prop := f = .nullOp ∨ ∃ g, f = .inProc g

theorem ofStream_inProc (g : Fault) : (Fault.inProc g).OfStream := Or.inr ⟨g, rfl⟩

theorem getlong_raises (X : Flexxdr σ) : Raises Fault.OfStream (flexxdrGetlong X) := by
  unfold flexxdrGetlong
  cases X.fOps.fGetlong with
  | none => exact Raises.error (Or.inl rfl)
  | some f => exact (Raises.mapError ofStream_inProc).bind fun _ => Raises.ok _

theorem putlong_raises (X : Flexxdr σ) (lp : ULong) : Raises Fault.OfStream (flexxdrPutlong X lp) := by
  unfold flexxdrPutlong
  cases X.fOps.fPutlong with
  | none => exact Raises.error (Or.inl rfl)
  | some f => exact (Raises.mapError ofStream_inProc).bind fun _ => Raises.ok _

theorem callProc_raises (p : FlexxdrProc σ α) (X : Flexxdr σ) (a : α) :
    Raises Fault.OfStream (callProc (some p) X a) := Raises.mapError ofStream_inProc

theorem callProc_ne_wild (proc : Option (FlexxdrProc σ α)) (X : Flexxdr σ) (a : α) :
    callProc proc X a ≠ .error .wildProc := by
  intro h
  cases proc with
  | none => cases h
  | some p =>
    rcases callProc_raises p X a _ h with hf | ⟨g, hf⟩
    · cases hf
    · cases hf

end Cornflakes.Flexrpc

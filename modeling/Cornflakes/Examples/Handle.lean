import Cornflakes.Pipeline

/-!
# The handle of the example programs

Both programs have one handle on one buffer of 80 bytes. They read from the connection into the buffer, turn the handle
around ("flip it") and write to the connection what lies before `f_private`.
-/

set_option autoImplicit false

namespace Cornflakes.Examples

open Wire Flexrpc

/-- `sizeof (char) * 80` -/
def bufSize : Nat := 80

/-- `read` into the buffer of a handle: what was there stays behind the bytes that came. -/
def readInto (flexxdrs : Flexxdr FlexxdrMem) (bs : List Byte) : Flexxdr FlexxdrMem :=
  { flexxdrs with strm := { flexxdrs.strm with fBase := bs ++ flexxdrs.strm.fBase.drop bs.length } }

/-- The lines under "Flip"; `bzero` is given the size of the pointer to the buffer. -/
def flipFlexxdr (flexxdrs : Flexxdr FlexxdrMem) (op : FlexxdrOp) : Flexxdr FlexxdrMem :=
  { flexxdrs with
    fOp := op
    strm := ⟨List.replicate 8 0 ++ flexxdrs.strm.fBase.drop 8, 0, .ofNat 32 bufSize⟩ }

/-- What is given to `write`, the `f_private - f_base` bytes from `f_base` on. -/
def written (flexxdrs : Flexxdr FlexxdrMem) : List Byte := flexxdrs.strm.fBase.take flexxdrs.strm.fPrivate

/-- What `printf` prints for `%s`; `none` where the place has no NUL and it goes on behind it. -/
def printString (s : List Byte) : Option (List Byte) := (strlen s).toOption.map s.take

/-- A pointer to a function that was looked up, stored in a record. -/
def procSlot {σ α : Type} : Option (FlexxdrProc σ α) → Slot σ α
  | none => .word 0
  | some p => .proc p

/-! ## Buffers and strings -/

/-- The buffer holds the string `s`. -/
def Holds (buf s : List Byte) : Prop := 0 ∉ s ∧ ∃ r, buf = s ++ 0 :: r

theorem Holds.lt {buf s : List Byte} (h : Holds buf s) : s.length < buf.length := by
  obtain ⟨-, r, rfl⟩ := h
  rw [List.length_append, List.length_cons]
  omega

theorem strlen_ok {buf : List Byte} {n : Nat} (h : strlen buf = .ok n) : Holds buf (buf.take n) ∧ n ≤ buf.length := by
  induction buf generalizing n with
  | nil => cases h
  | cons b buf ih =>
    rw [strlen] at h
    split at h
    next hb =>
      cases h
      exact ⟨⟨List.not_mem_nil, buf, by rw [hb]; rfl⟩, Nat.zero_le _⟩
    next hb =>
      cases hs : strlen buf with
      | error f =>
        rw [hs] at h
        cases h
      | ok k =>
        rw [hs] at h
        cases h
        obtain ⟨⟨h0, r, hr⟩, hk⟩ := ih hs
        refine ⟨⟨?_, r, ?_⟩, Nat.succ_le_succ hk⟩
        · rw [List.take_succ_cons, List.mem_cons, not_or]
          exact ⟨fun e => hb e.symm, h0⟩
        · rw [List.take_succ_cons, List.cons_append, ← hr]

/-- A string is printed when there is one in the buffer. -/
theorem printString_iff {buf s : List Byte} : printString buf = some s ↔ Holds buf s := by
  constructor
  · intro h
    unfold printString at h
    cases hs : strlen buf with
    | error f =>
      rw [hs] at h
      cases h
    | ok n =>
      rw [hs] at h
      cases h
      exact (strlen_ok hs).1
  · rintro ⟨h0, r, rfl⟩
    unfold printString
    rw [strlen_eq h0 r]
    exact congrArg some (List.take_left ..)

/-- The length of anything else is that of no string. -/
theorem strlen_raises (buf : List Byte) : Raises (· = Fault.unterminated) (strlen buf) := by
  induction buf with
  | nil => exact Raises.error rfl
  | cons b buf ih =>
    rw [strlen]
    split
    · exact Raises.ok _
    · exact ih.bind fun _ => Raises.ok _

/-- Nothing else is a place without a NUL. -/
theorem printString_none {buf : List Byte} (h : printString buf = none) : strlen buf = .error .unterminated := by
  unfold printString at h
  cases hs : strlen buf with
  | error f => exact congrArg Except.error (strlen_raises buf f hs)
  | ok n =>
    rw [hs] at h
    cases h

theorem Holds.unique {buf s t : List Byte} (h : Holds buf s) (h' : Holds buf t) : s = t := by
  have hs := printString_iff.mpr h
  rw [printString_iff.mpr h'] at hs
  cases hs
  rfl

/-- A string over the front of a buffer is the string in it when the byte behind it is NUL. -/
theorem holds_fill {buf s : List Byte} (hs : 0 ∉ s) (hl : s.length < buf.length) :
    Holds (s ++ buf.drop s.length) s ↔ buf[s.length]? = some 0 := by
  rw [List.drop_eq_getElem_cons hl, List.getElem?_eq_getElem hl, Option.some_inj]
  constructor
  · rintro ⟨-, r, hr⟩
    exact (List.cons.inj (List.append_cancel_left hr)).1
  · intro h
    exact ⟨hs, _, by rw [h]⟩

/-! ## Places in the buffer -/

/-- The buffer of 80 bytes. -/
structure Buffer where
  bytes : List Byte
  length_bytes : bytes.length = bufSize

namespace Buffer

variable (b : Buffer)

theorem lt : b.bytes.length < 2 ^ 32 := by
  rw [b.length_bytes]
  decide

/-- The place at its start. -/
def start : MemCursor := .ofBuffer b.bytes b.lt

@[simp] theorem ahead_start : b.start.ahead = b.bytes := rfl

@[simp] theorem room_start : b.start.room = bufSize := b.length_bytes

@[simp] theorem cells_start : b.start.cells = b.bytes := List.append_nil _

/-- The buffer with bytes over its front. -/
def fill (bs : List Byte) (h : bs.length ≤ bufSize) : Buffer where
  bytes := bs ++ b.bytes.drop bs.length
  length_bytes := by
    rw [List.length_append, List.length_drop, b.length_bytes]
    omega

/-- The handle of a program at its start. -/
theorem create (op : FlexxdrOp) : flexxdrmemCreate b.bytes (.ofNat 32 bufSize) op = memStrm op b.start := by
  rw [← b.length_bytes]
  exact create_eq_memStrm op b.bytes b.lt

theorem readInto_start (op : FlexxdrOp) {bs : List Byte} (h : bs.length ≤ bufSize) :
    readInto (memStrm op b.start) bs = memStrm op (b.fill bs h).start := by
  have hr : (b.fill bs h).start.room = b.start.room := by rw [room_start, room_start]
  simp only [readInto, memStrm, hr, cells_start]
  rfl

/-- The buffer with zeros over its first bytes, as many as a pointer has. -/
def zeroed : Buffer := b.fill (List.replicate 8 0) (by decide)

/-- A handle on the buffer is turned around. -/
theorem flipFlexxdr_memStrm {c : MemCursor} (h : c.cells = b.bytes) (op op' : FlexxdrOp) :
    flipFlexxdr (memStrm op c) op' = memStrm op' b.zeroed.start := by
  have hr : b.zeroed.start.room = bufSize := room_start _
  have hc : b.zeroed.start.cells = List.replicate 8 0 ++ b.bytes.drop 8 := cells_start _
  simp only [flipFlexxdr, memStrm, h, hr, hc]
  rfl

theorem cells_write {bs : List Byte} (h : bs.length ≤ bufSize) : (b.start.write bs).cells = (b.fill bs h).bytes :=
  List.append_nil _

/-- What was put into the buffer is written to the connection. -/
theorem written_write (op : FlexxdrOp) (bs : List Byte) : written (memStrm op (b.start.write bs)) = bs := by
  have hc : (b.start.write bs).cells = bs ++ b.bytes.drop bs.length := List.append_nil _
  have hp : (b.start.write bs).pos = bs.length := rfl
  simp only [written, memStrm, hc, hp, List.take_left]

end Buffer

end Cornflakes.Examples

import Cornflakes.Flexrpc.Stream
import Cornflakes.Wire.Cursor

/-!
# Memory streams (`flexxdr_mem.c`)

A memory stream is a buffer, the offset of `f_private` in it and the count `f_handy` of bytes that are left. A stream
whose count stays inside its buffer is a cursor in the buffer (`memStrm`, `exists_cursor`), and each operation is a
move of the cursor or refuses and leaves it alone (`getlong_word`, `getlong_short`, `putlong_room`, `putlong_full`,
`getbytes_room`, `getbytes_short`, `putbytes_room`, `putbytes_full`, `inline_room`, `inline_short`).
-/

set_option autoImplicit false

namespace Cornflakes.Flexrpc

open Wire

/-- What `f_private`, `f_base` and `f_handy` of a memory stream reach: the buffer at `f_base`, `f_private` as an
offset in it, and the count of bytes left. -/
structure FlexxdrMem where
  fBase : List Byte
  fPrivate : Nat
  fHandy : BitVec 32

/-- The word at offset `off`, in network order. -/
def FlexxdrMem.load (m : FlexxdrMem) (off : Nat) : Except Fault Word :=
  match Block.read m.fBase off 4 with
  | some [a, b, c, d] => .ok (ofBytes a b c d)
  | _ => .error .outOfBounds

/-- The stream with `bs` stored at offset `off`. -/
def FlexxdrMem.poke (m : FlexxdrMem) (off : Nat) (bs : List Byte) : Except Fault FlexxdrMem :=
  match Block.write m.fBase off bs with
  | some buf => .ok { m with fBase := buf }
  | none => .error .outOfBounds

/-- The stream with a word stored at offset `off` in network order. -/
def FlexxdrMem.store (m : FlexxdrMem) (off : Nat) (w : Word) : Except Fault FlexxdrMem := m.poke off (toBytes w)

def flexxdrmemGetlong (m : FlexxdrMem) : Except Fault (Option ULong × FlexxdrMem) :=
  if m.fHandy < 4 then .ok (none, m)
  else do
    let w ← m.load m.fPrivate
    return (some (w.signExtend 64), { m with fHandy := m.fHandy - 4, fPrivate := m.fPrivate + 4 })

def flexxdrmemPutlong (lp : ULong) (m : FlexxdrMem) : Except Fault (Bool × FlexxdrMem) :=
  if m.fHandy < 4 then .ok (false, m)
  else do
    let m' ← m.store m.fPrivate (lp.setWidth 32)
    return (true, { m' with fHandy := m.fHandy - 4, fPrivate := m.fPrivate + 4 })

def flexxdrmemGetbytes (len : BitVec 32) (m : FlexxdrMem) : Except Fault (Bool × List Byte × FlexxdrMem) :=
  if m.fHandy < len then .ok (false, [], m)
  else
    match Block.read m.fBase m.fPrivate len.toNat with
    | none => .error .outOfBounds
    | some bs => .ok (true, bs, { m with fHandy := m.fHandy - len, fPrivate := m.fPrivate + len.toNat })

/-- The object is not looked at before the room is. -/
def flexxdrmemPutbytes (addr : List Byte) (len : BitVec 32) (m : FlexxdrMem) : Except Fault (Bool × FlexxdrMem) :=
  if m.fHandy < len then .ok (false, m)
  else
    match Block.read addr 0 len.toNat with
    | none => .error .outOfBounds
    | some bs => do
      let m' ← m.poke m.fPrivate bs
      return (true, { m' with fHandy := m.fHandy - len, fPrivate := m.fPrivate + len.toNat })

def flexxdrmemGetpos (m : FlexxdrMem) : BitVec 32 := .ofNat 32 m.fPrivate

/-- Addresses are taken relative to `f_base`; `lastaddr` can lie below it. -/
def flexxdrmemSetpos (pos : BitVec 32) (m : FlexxdrMem) : Bool × FlexxdrMem :=
  let newaddr : Int := pos.toNat
  let lastaddr : Int := m.fPrivate - m.fHandy.toNat
  let handy : ULong := .ofInt 64 (lastaddr - newaddr)
  if newaddr > lastaddr ∨ newaddr < 0 ∨ handy ≠ (handy.setWidth 32).setWidth 64 then (false, m)
  else (true, { m with fPrivate := pos.toNat, fHandy := handy.setWidth 32 })

def flexxdrmemInline (len : BitVec 32) (m : FlexxdrMem) : Option Nat × FlexxdrMem :=
  if m.fHandy ≥ len then
    (some m.fPrivate, { m with fHandy := m.fHandy - len, fPrivate := m.fPrivate + len.toNat })
  else (none, m)

def flexxdrmemOps : FlexxdrOps FlexxdrMem where
  fGetlong := some flexxdrmemGetlong
  fPutlong := some flexxdrmemPutlong
  fGetbytes := some flexxdrmemGetbytes
  fPutbytes := some flexxdrmemPutbytes
  fGetpostn := some flexxdrmemGetpos
  fSetpostn := some flexxdrmemSetpos
  fInline := some flexxdrmemInline
  load := FlexxdrMem.load
  store := FlexxdrMem.store

def flexxdrmemCreate (addr : List Byte) (size : BitVec 32) (op : FlexxdrOp) : Flexxdr FlexxdrMem where
  fOp := op
  fOps := flexxdrmemOps
  strm := ⟨addr, 0, size⟩

/-! ## Memory streams as cursors -/

/-- A place in the buffer of a memory stream, with fewer than `2 ^ 32` bytes left. -/
abbrev MemCursor := Cursor Byte (2 ^ 32)

/-- The memory stream at a cursor. -/
def memStrm (op : FlexxdrOp) (c : MemCursor) : Flexxdr FlexxdrMem where
  fOp := op
  fOps := flexxdrmemOps
  strm := ⟨c.cells, c.pos, .ofNat 32 c.room⟩

/-- The cursor at the start of a buffer. -/
def MemCursor.ofBuffer (buf : List Byte) (h : buf.length < 2 ^ 32) : MemCursor := ⟨[], buf, [], h⟩

theorem create_eq_memStrm (op : FlexxdrOp) (buf : List Byte) (h : buf.length < 2 ^ 32) :
    flexxdrmemCreate buf (.ofNat 32 buf.length) op = memStrm op (MemCursor.ofBuffer buf h) := by
  simp [flexxdrmemCreate, memStrm, MemCursor.ofBuffer, Cursor.cells, Cursor.pos, Cursor.room]

/-- A stream whose count stays inside its buffer is at a cursor. -/
theorem exists_cursor (op : FlexxdrOp) (m : FlexxdrMem) (h : m.fPrivate + m.fHandy.toNat ≤ m.fBase.length) :
    ∃ c : MemCursor, (⟨op, flexxdrmemOps, m⟩ : Flexxdr FlexxdrMem) = memStrm op c := by
  obtain ⟨buf, p, n⟩ := m
  simp only at h
  have hn := n.isLt
  refine ⟨⟨buf.take p, (buf.drop p).take n.toNat, buf.drop (p + n.toNat), ?_⟩, ?_⟩
  · rw [List.length_take]; omega
  · have hb : buf.take p ++ (buf.drop p).take n.toNat ++ buf.drop (p + n.toNat) = buf := by
      rw [List.append_assoc, ← List.drop_drop, List.take_append_drop, List.take_append_drop]
    have hr : ((buf.drop p).take n.toNat).length = n.toNat := by rw [List.length_take, List.length_drop]; omega
    have hp : (buf.take p).length = p := by rw [List.length_take]; omega
    simp only [memStrm, Cursor.cells, Cursor.pos, Cursor.room, hb, hr, hp, BitVec.ofNat_toNat, BitVec.setWidth_eq]

/-- The place of a stream is determined by the stream. -/
theorem memStrm_before {op op' : FlexxdrOp} {c c' : MemCursor} (h : memStrm op c = memStrm op' c') :
    c.before = c'.before := by
  have hs : (memStrm op c).strm = (memStrm op' c').strm := by rw [h]
  have hb (d : MemCursor) : d.cells.take d.pos = d.before := by
    rw [Cursor.cells, List.append_assoc, Cursor.pos, List.take_left]
  simp only [memStrm, FlexxdrMem.mk.injEq] at hs
  rw [← hb c, ← hb c', hs.1, hs.2.1]

section Moves

variable {op : FlexxdrOp} {c : MemCursor}

@[simp] theorem memStrm_fOp : (memStrm op c).fOp = op := rfl

theorem toNat_handy : (memStrm op c).strm.fHandy.toNat = c.room := by
  show (BitVec.ofNat 32 c.room).toNat = c.room
  rw [BitVec.toNat_ofNat]
  exact Nat.mod_eq_of_lt c.fits

/-- The guard of every operation: too few bytes left. -/
theorem handy_lt_iff (len : BitVec 32) : (memStrm op c).strm.fHandy < len ↔ c.room < len.toNat := by
  rw [BitVec.lt_def, toNat_handy]

/-- Counting down what an operation has used does not wrap. -/
theorem handy_sub {len : BitVec 32} (h : len.toNat ≤ c.room) :
    (memStrm op c).strm.fHandy - len = .ofNat 32 (c.room - len.toNat) := by
  have hc : c.room < 2 ^ 32 := c.fits
  have hl := len.isLt
  apply BitVec.eq_of_toNat_eq
  rw [BitVec.toNat_sub, toNat_handy, BitVec.toNat_ofNat]
  omega

/-- Stepping over `len` bytes, on the buffer as it is. -/
theorem memStrm_advance (op : FlexxdrOp) (len : BitVec 32) (h : len.toNat ≤ c.room) :
    memStrm op (c.advance len.toNat) =
      ⟨op, flexxdrmemOps, ⟨c.cells, c.pos + len.toNat, (memStrm op c).strm.fHandy - len⟩⟩ := by
  rw [handy_sub h]
  simp only [memStrm, c.cells_advance, c.pos_advance h, c.room_advance]

/-- Stepping over bytes that were just stored. -/
theorem memStrm_write (op : FlexxdrOp) (len : BitVec 32) {bs : List Byte} (hl : bs.length = len.toNat)
    (h : len.toNat ≤ c.room) :
    memStrm op (c.write bs) =
      ⟨op, flexxdrmemOps, ⟨(c.write bs).cells, c.pos + len.toNat, (memStrm op c).strm.fHandy - len⟩⟩ := by
  rw [handy_sub h]
  simp only [memStrm, c.pos_write, c.room_write, hl]

theorem room_word {w : Word} {r : List Byte} (h : c.ahead = toBytes w ++ r) : 4 ≤ c.room := by
  unfold Cursor.room
  rw [h, List.length_append, length_toBytes]
  omega

/-- The word at a place of the buffer, loaded while the stream is at another place `c'` of it. -/
theorem load_word {c' : MemCursor} (hc : c'.cells = c.cells) {w : Word} {r : List Byte} (h : c.ahead = toBytes w ++ r) :
    (memStrm op c').strm.load c.pos = .ok w := by
  simp only [FlexxdrMem.load, memStrm, hc, c.read_cells (room_word h), h, take_toBytes]
  exact congrArg _ (ofBytes_toBytes w)

theorem poke_room {bs : List Byte} (h : bs.length ≤ c.room) :
    (memStrm op c).strm.poke c.pos bs = .ok { (memStrm op c).strm with fBase := (c.write bs).cells } := by
  simp only [FlexxdrMem.poke, memStrm, c.write_cells h]

/-! ### `FLEXXDR_GETLONG` -/

theorem getlong_word {w : Word} {r : List Byte} (h : c.ahead = toBytes w ++ r) :
    flexxdrGetlong (memStrm op c) = .ok (some (w.signExtend 64), memStrm op (c.advance 4)) := by
  have hr : 4 ≤ c.room := room_word h
  have hg : ¬ (memStrm op c).strm.fHandy < 4 := by rw [handy_lt_iff]; simpa using hr
  have hm : flexxdrmemGetlong (memStrm op c).strm =
      .ok (some (w.signExtend 64), (memStrm op (c.advance (4 : BitVec 32).toNat)).strm) := by
    rw [memStrm_advance op 4 hr]
    unfold flexxdrmemGetlong
    rw [if_neg hg, show (memStrm op c).strm.load (memStrm op c).strm.fPrivate = .ok w from load_word rfl h]
    rfl
  show ((flexxdrmemGetlong (memStrm op c).strm).mapError Fault.inProc >>= _) = _
  rw [hm]
  rfl

theorem getlong_short (h : c.room < 4) : flexxdrGetlong (memStrm op c) = .ok (none, memStrm op c) := by
  have hg : (memStrm op c).strm.fHandy < 4 := by rw [handy_lt_iff]; exact h
  have hm : flexxdrmemGetlong (memStrm op c).strm = .ok (none, (memStrm op c).strm) := if_pos hg
  show ((flexxdrmemGetlong (memStrm op c).strm).mapError Fault.inProc >>= _) = _
  rw [hm]
  rfl

/-! ### `FLEXXDR_PUTLONG` -/

theorem putlong_room (lp : ULong) (h : 4 ≤ c.room) :
    flexxdrPutlong (memStrm op c) lp = .ok (true, memStrm op (c.write (toBytes (lp.setWidth 32)))) := by
  have hg : ¬ (memStrm op c).strm.fHandy < 4 := by rw [handy_lt_iff]; simpa using h
  have hm : flexxdrmemPutlong lp (memStrm op c).strm =
      .ok (true, (memStrm op (c.write (toBytes (lp.setWidth 32)))).strm) := by
    rw [memStrm_write op 4 rfl h]
    unfold flexxdrmemPutlong
    rw [if_neg hg, show (memStrm op c).strm.store (memStrm op c).strm.fPrivate (lp.setWidth 32) = _ from poke_room h]
    rfl
  show ((flexxdrmemPutlong lp (memStrm op c).strm).mapError Fault.inProc >>= _) = _
  rw [hm]
  rfl

theorem putlong_full (lp : ULong) (h : c.room < 4) :
    flexxdrPutlong (memStrm op c) lp = .ok (false, memStrm op c) := by
  have hg : (memStrm op c).strm.fHandy < 4 := by rw [handy_lt_iff]; exact h
  have hm : flexxdrmemPutlong lp (memStrm op c).strm = .ok (false, (memStrm op c).strm) := if_pos hg
  show ((flexxdrmemPutlong lp (memStrm op c).strm).mapError Fault.inProc >>= _) = _
  rw [hm]
  rfl

/-! ### `FLEXXDR_GETBYTES` -/

theorem getbytes_room {len : BitVec 32} {bs r : List Byte} (hl : bs.length = len.toNat) (h : c.ahead = bs ++ r) :
    flexxdrGetbytes (memStrm op c) len = .ok (true, bs, memStrm op (c.advance len.toNat)) := by
  have hr : len.toNat ≤ c.room := by
    unfold Cursor.room
    rw [h, List.length_append]
    omega
  have hg : ¬ (memStrm op c).strm.fHandy < len := by
    rw [handy_lt_iff]
    omega
  have hb : Block.read (memStrm op c).strm.fBase (memStrm op c).strm.fPrivate len.toNat = some bs := by
    rw [show Block.read (memStrm op c).strm.fBase (memStrm op c).strm.fPrivate len.toNat = _ from c.read_cells hr, h,
      ← hl, List.take_left]
  have hm : flexxdrmemGetbytes len (memStrm op c).strm =
      .ok (true, bs, (memStrm op (c.advance len.toNat)).strm) := by
    rw [memStrm_advance op len hr]
    unfold flexxdrmemGetbytes
    rw [if_neg hg, hb]
    rfl
  show ((flexxdrmemGetbytes len (memStrm op c).strm).mapError Fault.inProc >>= _) = _
  rw [hm]
  rfl

theorem getbytes_short {len : BitVec 32} (h : c.room < len.toNat) :
    flexxdrGetbytes (memStrm op c) len = .ok (false, [], memStrm op c) := by
  have hm : flexxdrmemGetbytes len (memStrm op c).strm = .ok (false, [], (memStrm op c).strm) :=
    if_pos ((handy_lt_iff len).mpr h)
  show ((flexxdrmemGetbytes len (memStrm op c).strm).mapError Fault.inProc >>= _) = _
  rw [hm]
  rfl

/-! ### `FLEXXDR_PUTBYTES` -/

theorem block_read_front {cp : List Byte} {n : Nat} (h : n ≤ cp.length) : Block.read cp 0 n = some (cp.take n) := by
  unfold Block.read
  rw [if_pos (by omega), List.drop_zero]

theorem putbytes_room {addr : List Byte} {len : BitVec 32} (hl : len.toNat ≤ addr.length) (h : len.toNat ≤ c.room) :
    flexxdrPutbytes (memStrm op c) addr len = .ok (true, memStrm op (c.write (addr.take len.toNat))) := by
  have hn : (addr.take len.toNat).length = len.toNat := List.length_take_of_le hl
  have hg : ¬ (memStrm op c).strm.fHandy < len := by
    rw [handy_lt_iff]
    omega
  have hm : flexxdrmemPutbytes addr len (memStrm op c).strm =
      .ok (true, (memStrm op (c.write (addr.take len.toNat))).strm) := by
    rw [memStrm_write op len hn (by omega)]
    unfold flexxdrmemPutbytes
    simp only [if_neg hg, block_read_front hl]
    rw [show (memStrm op c).strm.poke (memStrm op c).strm.fPrivate _ = _ from poke_room (by omega)]
    rfl
  show ((flexxdrmemPutbytes addr len (memStrm op c).strm).mapError Fault.inProc >>= _) = _
  rw [hm]
  rfl

theorem putbytes_full (addr : List Byte) {len : BitVec 32} (h : c.room < len.toNat) :
    flexxdrPutbytes (memStrm op c) addr len = .ok (false, memStrm op c) := by
  have hm : flexxdrmemPutbytes addr len (memStrm op c).strm = .ok (false, (memStrm op c).strm) :=
    if_pos ((handy_lt_iff _).mpr h)
  show ((flexxdrmemPutbytes addr len (memStrm op c).strm).mapError Fault.inProc >>= _) = _
  rw [hm]
  rfl

/-- Where there is room, an object is read past its end. -/
theorem putbytes_over {addr : List Byte} {len : BitVec 32} (hl : addr.length < len.toNat) (h : len.toNat ≤ c.room) :
    flexxdrPutbytes (memStrm op c) addr len = .error (.inProc .outOfBounds) := by
  have hg : ¬ (memStrm op c).strm.fHandy < len := by
    rw [handy_lt_iff]
    omega
  have hr : Block.read addr 0 len.toNat = none := if_neg (by omega)
  have hm : flexxdrmemPutbytes addr len (memStrm op c).strm = .error .outOfBounds := by
    unfold flexxdrmemPutbytes
    simp only [if_neg hg, hr]
  show ((flexxdrmemPutbytes addr len (memStrm op c).strm).mapError Fault.inProc >>= _) = _
  rw [hm]
  rfl

/-! ### `FLEXXDR_INLINE` -/

theorem inline_room {len : BitVec 32} (h : len.toNat ≤ c.room) :
    flexxdrInline (memStrm op c) len = .ok (some c.pos, memStrm op (c.advance len.toNat)) := by
  have hg : (memStrm op c).strm.fHandy ≥ len := by
    rw [ge_iff_le, BitVec.le_def, toNat_handy]
    exact h
  have hm : flexxdrmemInline len (memStrm op c).strm = (some c.pos, (memStrm op (c.advance len.toNat)).strm) := by
    rw [memStrm_advance op len h]
    exact if_pos hg
  show Except.ok ((flexxdrmemInline len (memStrm op c).strm).1,
    { memStrm op c with strm := (flexxdrmemInline len (memStrm op c).strm).2 }) = _
  rw [hm]
  rfl

theorem inline_short {len : BitVec 32} (h : c.room < len.toNat) :
    flexxdrInline (memStrm op c) len = .ok (none, memStrm op c) := by
  have hg : ¬ (memStrm op c).strm.fHandy ≥ len := by
    rw [ge_iff_le, BitVec.le_def, toNat_handy]
    omega
  have hm : flexxdrmemInline len (memStrm op c).strm = (none, (memStrm op c).strm) := if_neg hg
  show Except.ok ((flexxdrmemInline len (memStrm op c).strm).1,
    { memStrm op c with strm := (flexxdrmemInline len (memStrm op c).strm).2 }) = _
  rw [hm]

/-! ### Loads through the pointer of `FLEXXDR_INLINE` -/

theorem iflexxdrGetLong_word (op : FlexxdrOp) {c' : MemCursor} (hc : c'.cells = c.cells) {w : Word} {r : List Byte}
    (h : c.ahead = toBytes w ++ r) :
    iflexxdrGetLong (memStrm op c') c.pos = .ok (w.setWidth 64, (c.advance 4).pos) := by
  rw [c.pos_advance (room_word h)]
  show (((memStrm op c').strm.load c.pos).mapError Fault.inProc >>= _) = _
  rw [load_word hc h]
  rfl

end Moves

end Cornflakes.Flexrpc

import Cornflakes.Wire.Run
import Cornflakes.Flexrpc.Mem

/-!
# Runs of operations on a memory stream

A `MemOp` is one call of an operation of a memory stream. In every state that a run of such calls reaches, the stream is
at a cursor of its buffer: it never leaves the buffer, and a call that fails changes nothing (`stays_inside`). As long
as the stream has only moved forward the cursor is followed by nothing but the bytes that are left, and
`flexxdrmem_setpos` is then right exactly when none are left or the position is past the end (`randomAccess_iff`).
-/

set_option autoImplicit false

namespace Cornflakes.Flexrpc

open Wire

/-- A call of a stream operation with its arguments. The bytes of `putbytes` are counted by a `u_int`. -/
inductive MemOp
  | getlong
  | putlong (lp : ULong)
  | getbytes (len : Word)
  | putbytes (addr : List Byte) (h : addr.length < 2 ^ 32)
  | setpos (pos : Word)
  | inline (len : Word)

namespace MemOp

/-- The call: whether it succeeds, and the stream afterwards. -/
def call (X : Flexxdr FlexxdrMem) : MemOp → Except Fault (Bool × Flexxdr FlexxdrMem)
  | getlong => do
    let (l, X) ← flexxdrGetlong X
    return (l.isSome, X)
  | putlong lp => flexxdrPutlong X lp
  | getbytes len => do
    let (ok, _, X) ← flexxdrGetbytes X len
    return (ok, X)
  | putbytes addr _ => flexxdrPutbytes X addr (.ofNat 32 addr.length)
  | setpos pos => flexxdrSetpos X pos
  | inline len => do
    let (buf, X) ← flexxdrInline X len
    return (buf.isSome, X)

/-- The number of bytes at `f_private` that the call reads, writes or gives a pointer to. -/
def width : MemOp → Nat
  | getlong => 4
  | putlong _ => 4
  | getbytes len => len.toNat
  | putbytes addr _ => addr.length
  | setpos _ => 0
  | inline len => len.toNat

/-- Every operation but `setpos` goes forward. -/
def Forward : MemOp → Prop
  | setpos _ => False
  | _ => True

end MemOp

/-- The stream after a call. -/
def memStep (X : Flexxdr FlexxdrMem) (o : MemOp) : Option (Flexxdr FlexxdrMem) :=
  match o.call X with
  | .ok (_, X') => some X'
  | .error _ => none

/-! ## Calls at a cursor -/

section Cursors

variable {op : FlexxdrOp} {c : MemCursor}

theorem advance_eq_write {n : Nat} (h : n ≤ c.room) : c.advance n = c.write (c.ahead.take n) := by
  ext1
  · rfl
  · rw [Cursor.ahead_advance, Cursor.ahead_write, List.length_take_of_le h]
  · rfl

theorem length_cells_write {bs : List Byte} (h : bs.length ≤ c.room) : (c.write bs).cells.length = c.cells.length := by
  rw [Cursor.room] at h
  simp only [Cursor.cells, Cursor.before_write, Cursor.ahead_write, List.length_append, List.length_drop]
  show _ + c.after.length = _
  omega

/-- A call that goes forward overwrites the bytes ahead, or fails and leaves everything alone. -/
theorem call_forward (op : FlexxdrOp) (c : MemCursor) {o : MemOp} (ho : o.Forward) :
    (∃ bs, bs.length = o.width ∧ bs.length ≤ c.room ∧
      o.call (memStrm op c) = .ok (true, memStrm op (c.write bs))) ∨
    o.call (memStrm op c) = .ok (false, memStrm op c) := by
  have htake (n : Nat) (h : n ≤ c.room) : (c.ahead.take n).length = n := List.length_take_of_le h
  cases o with
  | getlong =>
    rcases word_cases c.ahead with hs | ⟨w, r, hw⟩
    · exact Or.inr (by simp only [MemOp.call, getlong_short hs, ok_bind]; rfl)
    · have hr : 4 ≤ c.room := room_word hw
      refine Or.inl ⟨c.ahead.take 4, htake 4 hr, by rw [htake 4 hr]; exact hr, ?_⟩
      simp only [MemOp.call, getlong_word hw, ok_bind, advance_eq_write hr]
      rfl
  | putlong lp =>
    by_cases hr : 4 ≤ c.room
    · exact Or.inl ⟨toBytes (lp.setWidth 32), rfl, hr, putlong_room lp hr⟩
    · exact Or.inr (putlong_full lp (by omega))
  | getbytes len =>
    by_cases hr : len.toNat ≤ c.room
    · have hb : flexxdrGetbytes (memStrm op c) len = _ :=
        getbytes_room (htake _ hr) (List.take_append_drop len.toNat c.ahead).symm
      refine Or.inl ⟨c.ahead.take len.toNat, htake _ hr, by rw [htake _ hr]; exact hr, ?_⟩
      simp only [MemOp.call, hb, ok_bind, advance_eq_write hr]
      rfl
    · exact Or.inr (by simp only [MemOp.call, getbytes_short (Nat.lt_of_not_le hr), ok_bind]; rfl)
  | putbytes addr h =>
    have hn : (BitVec.ofNat 32 addr.length).toNat = addr.length := by
      rw [BitVec.toNat_ofNat]
      exact Nat.mod_eq_of_lt h
    by_cases hr : addr.length ≤ c.room
    · have hp : flexxdrPutbytes (memStrm op c) addr (.ofNat 32 addr.length) = _ :=
        putbytes_room (Nat.le_of_eq hn) (by rw [hn]; exact hr)
      rw [hn, List.take_length] at hp
      exact Or.inl ⟨addr, rfl, hr, hp⟩
    · exact Or.inr (putbytes_full addr (by rw [hn]; omega))
  | setpos pos => exact ho.elim
  | inline len =>
    by_cases hr : len.toNat ≤ c.room
    · refine Or.inl ⟨c.ahead.take len.toNat, htake _ hr, by rw [htake _ hr]; exact hr, ?_⟩
      simp only [MemOp.call, inline_room hr, ok_bind, advance_eq_write hr]
      rfl
    · exact Or.inr (by simp only [MemOp.call, inline_short (Nat.lt_of_not_le hr), ok_bind]; rfl)

/-- A count of less than 32 bits is not changed by the cast to `u_int` and back. -/
theorem handy_fits {n : Nat} (h : n < 2 ^ 32) : (BitVec.ofInt 64 n).setWidth 32 = BitVec.ofNat 32 n ∧
    (BitVec.ofInt 64 n) = ((BitVec.ofInt 64 n).setWidth 32).setWidth 64 := by
  rw [BitVec.ofInt_natCast]
  have ht : (BitVec.ofNat 64 n).toNat = n := by
    rw [BitVec.toNat_ofNat]
    exact Nat.mod_eq_of_lt (by omega)
  refine ⟨?_, ((setWidth_fits _).mpr (by rw [ht]; exact h)).symm⟩
  apply BitVec.eq_of_toNat_eq
  rw [BitVec.toNat_setWidth, ht, BitVec.toNat_ofNat]

/-- `flexxdrmem_setpos` takes the end of the buffer to be as far before the place as it is after it. -/
theorem setpos_cursor (op : FlexxdrOp) (hc : c.cells.length < 2 ^ 32) (q : Word) :
    flexxdrSetpos (memStrm op c) q =
      if q.toNat + c.room ≤ c.pos then
        .ok (true, ⟨op, flexxdrmemOps, ⟨c.cells, q.toNat, .ofNat 32 (c.pos - c.room - q.toNat)⟩⟩)
      else .ok (false, memStrm op c) := by
  have hp : c.pos ≤ c.cells.length := by
    simp only [Cursor.cells, Cursor.pos, List.length_append]
    omega
  have hm : flexxdrmemSetpos q (memStrm op c).strm =
      if q.toNat + c.room ≤ c.pos then (true, ⟨c.cells, q.toNat, .ofNat 32 (c.pos - c.room - q.toNat)⟩)
      else (false, (memStrm op c).strm) := by
    have hh : (memStrm op c).strm.fHandy.toNat = c.room := toNat_handy
    have hpos : (memStrm op c).strm.fPrivate = c.pos := rfl
    simp only [flexxdrmemSetpos, hh, hpos]
    by_cases hq : q.toNat + c.room ≤ c.pos
    · have hd : ((c.pos : Int) - c.room - q.toNat) = ((c.pos - c.room - q.toNat : Nat) : Int) := by omega
      obtain ⟨hs, hf⟩ := handy_fits (show c.pos - c.room - q.toNat < 2 ^ 32 by omega)
      have hg : ¬ ((q.toNat : Int) > c.pos - c.room ∨ (q.toNat : Int) < 0 ∨
          BitVec.ofInt 64 ((c.pos : Int) - c.room - q.toNat) ≠
            ((BitVec.ofInt 64 ((c.pos : Int) - c.room - q.toNat)).setWidth 32).setWidth 64) := by
        rw [hd]
        rintro (h | h | h)
        · omega
        · omega
        · exact h hf
      rw [if_neg hg, if_pos hq, hd, hs]
      rfl
    · rw [if_pos (Or.inl (by omega)), if_neg hq]
  show Except.ok ((flexxdrmemSetpos q (memStrm op c).strm).1,
    { memStrm op c with strm := (flexxdrmemSetpos q (memStrm op c).strm).2 }) = _
  rw [hm]
  split
  · rfl
  · rfl

end Cursors

/-! ## Staying in the buffer -/

/-- The stream is at a cursor of a buffer of `n` bytes. -/
def AtCursor (n : Nat) (X : Flexxdr FlexxdrMem) : Prop := ∃ op, ∃ c : MemCursor, X = memStrm op c ∧ c.cells.length = n

theorem pos_add_room_le (c : MemCursor) : c.pos + c.room ≤ c.cells.length := by
  simp only [Cursor.cells, Cursor.pos, Cursor.room, List.length_append]
  omega

theorem atCursor_create (buf : List Byte) (h : buf.length < 2 ^ 32) (op : FlexxdrOp) :
    AtCursor buf.length (flexxdrmemCreate buf (.ofNat 32 buf.length) op) :=
  ⟨op, MemCursor.ofBuffer buf h, create_eq_memStrm op buf h, by simp [Cursor.cells, MemCursor.ofBuffer]⟩

/-- A call that succeeds stays in the block of `o.width` bytes at `f_private`, and one that fails changes nothing. -/
structure StaysIn (n : Nat) (X : Flexxdr FlexxdrMem) (o : MemOp) (ok : Bool) (X' : Flexxdr FlexxdrMem) : Prop where
  block : ok = true → X.strm.fPrivate + o.width ≤ n
  before : X'.strm.fBase.take X.strm.fPrivate = X.strm.fBase.take X.strm.fPrivate
  after : X'.strm.fBase.drop (X.strm.fPrivate + o.width) = X.strm.fBase.drop (X.strm.fPrivate + o.width)
  unchanged : ok = false → X' = X

theorem StaysIn.refused {n : Nat} {X : Flexxdr FlexxdrMem} {o : MemOp} : StaysIn n X o false X where
  block h := by cases h
  before := rfl
  after := rfl
  unchanged _ := rfl

/-- One call, whatever it is, returns at a cursor of the same buffer. -/
theorem call_staysIn {n : Nat} (hn : n < 2 ^ 32) {X : Flexxdr FlexxdrMem} (hX : AtCursor n X) (o : MemOp) :
    ∃ ok X', o.call X = .ok (ok, X') ∧ AtCursor n X' ∧ StaysIn n X o ok X' := by
  obtain ⟨op, c, rfl, rfl⟩ := hX
  have hb := pos_add_room_le c
  by_cases ho : o.Forward
  · rcases call_forward op c ho with ⟨bs, hl, hr, h⟩ | h
    · refine ⟨true, _, h, ⟨op, c.write bs, rfl, length_cells_write hr⟩, ?_, ?_, ?_, ?_⟩
      · intro _
        show c.pos + o.width ≤ _
        omega
      · show (c.write bs).cells.take c.pos = c.cells.take c.pos
        simp only [Cursor.cells, Cursor.before_write, Cursor.pos, List.append_assoc, List.take_left]
      · have hw : (c.write bs).cells.drop (c.pos + bs.length) = c.ahead.drop bs.length ++ c.after := by
          rw [← c.pos_write, Cursor.cells, List.append_assoc, Cursor.pos, List.drop_left]
          rfl
        have hc : c.cells.drop (c.pos + bs.length) = c.ahead.drop bs.length ++ c.after := by
          rw [Cursor.cells, List.append_assoc, ← List.drop_drop, Cursor.pos, List.drop_left,
            List.drop_append_of_le_length hr]
        show (c.write bs).cells.drop (c.pos + o.width) = c.cells.drop (c.pos + o.width)
        rw [← hl, hw, hc]
      · intro he
        cases he
    · exact ⟨false, _, h, ⟨op, c, rfl, rfl⟩, StaysIn.refused⟩
  · cases o with
    | setpos q =>
      have h := setpos_cursor op hn q
      by_cases hq : q.toNat + c.room ≤ c.pos
      · rw [if_pos hq] at h
        have hin : q.toNat + (BitVec.ofNat 32 (c.pos - c.room - q.toNat)).toNat ≤ c.cells.length := by
          rw [BitVec.toNat_ofNat, Nat.mod_eq_of_lt (by omega)]
          omega
        obtain ⟨c', hc'⟩ := exists_cursor op ⟨c.cells, q.toNat, .ofNat 32 (c.pos - c.room - q.toNat)⟩ hin
        have hcells : c'.cells = c.cells := congrArg (fun X => X.strm.fBase) hc'.symm
        refine ⟨true, _, h, ⟨op, c', hc', by rw [hcells]⟩, ?_, rfl, rfl, ?_⟩
        · intro _
          show c.pos + 0 ≤ _
          omega
        · intro he
          cases he
      · rw [if_neg hq] at h
        exact ⟨false, _, h, ⟨op, c, rfl, rfl⟩, StaysIn.refused⟩
    | getlong | putlong | getbytes | putbytes | inline => exact absurd trivial ho

theorem memStep_atCursor {n : Nat} (hn : n < 2 ^ 32) (X : Flexxdr FlexxdrMem) (o : MemOp) (hX : AtCursor n X) :
    ∃ X', memStep X o = some X' ∧ AtCursor n X' := by
  obtain ⟨ok, X', h, hX', -⟩ := call_staysIn hn hX o
  exact ⟨X', by rw [memStep, h], hX'⟩

/-- The block that `flexxdrmem_inline` returns is the one at `f_private`. -/
theorem inline_atCursor {n : Nat} {X X' : Flexxdr FlexxdrMem} (hX : AtCursor n X) {len : Word} {buf : Nat}
    (h : flexxdrInline X len = .ok (some buf, X')) : buf + len.toNat ≤ n := by
  obtain ⟨op, c, rfl, rfl⟩ := hX
  have hb := pos_add_room_le c
  by_cases hr : len.toNat ≤ c.room
  · rw [inline_room hr] at h
    cases h
    omega
  · rw [inline_short (Nat.lt_of_not_le hr)] at h
    cases h

/-- After any calls on a stream over a buffer, whether they succeed or not, the place and the bytes left are inside the
buffer, and the next call neither reads nor writes outside it and changes nothing if it fails. -/
theorem stays_inside (buf : List Byte) (hn : buf.length < 2 ^ 32) (op : FlexxdrOp) (ops : List MemOp) :
    ∃ X, run memStep (flexxdrmemCreate buf (.ofNat 32 buf.length) op) ops = some X ∧
      X.strm.fBase.length = buf.length ∧ X.strm.fPrivate + X.strm.fHandy.toNat ≤ buf.length ∧
      (∀ o : MemOp, ∃ ok X', o.call X = .ok (ok, X') ∧ StaysIn buf.length X o ok X') ∧
      ∀ (len : Word) (p : Nat) (X' : Flexxdr FlexxdrMem), flexxdrInline X len = .ok (some p, X') →
        p + len.toNat ≤ buf.length := by
  have hstep : ∀ o ∈ ops, ∀ X, AtCursor buf.length X → ∃ X', memStep X o = some X' ∧ AtCursor buf.length X' :=
    fun o _ X hX => memStep_atCursor hn X o hX
  obtain ⟨X, hr, hX⟩ := exists_run hstep (atCursor_create buf hn op)
  refine ⟨X, hr, ?_, ?_, ?_, fun len p X' h => inline_atCursor hX h⟩
  · obtain ⟨op, c, rfl, hc⟩ := hX
    exact hc
  · obtain ⟨op, c, rfl, hc⟩ := hX
    rw [toNat_handy, ← hc]
    exact pos_add_room_le c
  · intro o
    obtain ⟨ok, X', h, -, hs⟩ := call_staysIn hn hX o
    exact ⟨ok, X', h, hs⟩

theorem stays_inside_two :
    ∃ X, run memStep (flexxdrmemCreate [1, 2, 3, 4, 5, 6] 6 .decode)
        [.getlong, .getlong, .setpos 2, .inline 4294967295] = some X ∧
      X.strm.fBase.length = 6 ∧ X.strm.fPrivate + X.strm.fHandy.toNat ≤ 6 ∧
      (∀ o : MemOp, ∃ ok X', o.call X = .ok (ok, X') ∧ StaysIn 6 X o ok X') ∧
      ∀ (len : Word) (p : Nat) (X' : Flexxdr FlexxdrMem), flexxdrInline X len = .ok (some p, X') →
        p + len.toNat ≤ 6 :=
  stays_inside [1, 2, 3, 4, 5, 6] (by decide) .decode _

/-! ## Random access -/

/-- After a call of `setpos` with `q` on a stream over `n` bytes. -/
structure RandomAccess (n : Nat) (X : Flexxdr FlexxdrMem) (q : Word) (ok : Bool) (X' : Flexxdr FlexxdrMem) : Prop where
  succeeds : ok = true ↔ q.toNat ≤ n
  getpos : ok = true → flexxdrGetpos X' = .ok q
  remaining : ok = true → X'.strm.fHandy.toNat = n - q.toNat
  reads : ok = true → ∀ len : Word, len.toNat ≤ n - q.toNat →
    ∃ X'', flexxdrGetbytes X' len = .ok (true, (X.strm.fBase.drop q.toNat).take len.toNat, X'')
  unchanged : ok = false → X' = X
  here : flexxdrGetpos X = .ok q → ok = true ∧ X' = X

/-- A cursor with nothing after its window: the place and the bytes left make up the whole buffer. -/
def AtTail (n : Nat) (X : Flexxdr FlexxdrMem) : Prop :=
  ∃ op, ∃ c : MemCursor, X = memStrm op c ∧ c.cells.length = n ∧ c.after = []

theorem atTail_create (buf : List Byte) (h : buf.length < 2 ^ 32) (op : FlexxdrOp) :
    AtTail buf.length (flexxdrmemCreate buf (.ofNat 32 buf.length) op) :=
  ⟨op, MemCursor.ofBuffer buf h, create_eq_memStrm op buf h, by simp [Cursor.cells, MemCursor.ofBuffer], rfl⟩

theorem memStep_atTail {n : Nat} {o : MemOp} (ho : o.Forward) (X : Flexxdr FlexxdrMem) (hX : AtTail n X) :
    ∃ X', memStep X o = some X' ∧ AtTail n X' := by
  obtain ⟨op, c, rfl, rfl, ha⟩ := hX
  rcases call_forward op c ho with ⟨bs, -, hr, h⟩ | h
  · exact ⟨memStrm op (c.write bs), by rw [memStep, h], op, c.write bs, rfl, length_cells_write hr, ha⟩
  · exact ⟨memStrm op c, by rw [memStep, h], op, c, rfl, rfl, ha⟩

theorem pos_add_room {c : MemCursor} (ha : c.after = []) : c.pos + c.room = c.cells.length := by
  simp only [Cursor.cells, Cursor.pos, Cursor.room, List.length_append, ha, List.length_nil]
  omega

/-- The stream at position `q` of a buffer, with the rest of it left. -/
theorem strm_at (op : FlexxdrOp) {buf : List Byte} (hn : buf.length < 2 ^ 32) {q : Nat} (hq : q ≤ buf.length) :
    (⟨op, flexxdrmemOps, ⟨buf, q, .ofNat 32 (buf.length - q)⟩⟩ : Flexxdr FlexxdrMem) =
      memStrm op ⟨buf.take q, buf.drop q, [], by rw [List.length_drop]; omega⟩ := by
  simp only [memStrm, Cursor.cells, Cursor.pos, Cursor.room, List.length_take_of_le hq, List.length_drop,
    List.append_nil, List.take_append_drop]

theorem getpos_cursor (op : FlexxdrOp) (c : MemCursor) : flexxdrGetpos (memStrm op c) = .ok (.ofNat 32 c.pos) := rfl

section Tail

variable (op : FlexxdrOp) {c : MemCursor} {q : Word}

theorem toNat_pos (hn : c.cells.length < 2 ^ 32) (ha : c.after = []) : (BitVec.ofNat 32 c.pos).toNat = c.pos := by
  have hp := pos_add_room ha
  rw [BitVec.toNat_ofNat]
  exact Nat.mod_eq_of_lt (by omega)

/-- A position past the end is refused, and is not the current one. -/
theorem randomAccess_refused (hn : c.cells.length < 2 ^ 32) (ha : c.after = []) (hq : c.cells.length < q.toNat) :
    RandomAccess c.cells.length (memStrm op c) q false (memStrm op c) := by
  have hp := pos_add_room ha
  refine ⟨⟨(fun he => by cases he), (fun he => by omega)⟩, ?_, ?_, ?_, fun _ => rfl, ?_⟩
  · intro he
    cases he
  · intro he
    cases he
  · intro he
    cases he
  · intro hg
    rw [getpos_cursor] at hg
    injection hg with hg
    rw [← hg, toNat_pos hn ha] at hq
    omega

/-- With no bytes left every position up to the current one, which is the end, is taken as it should be. -/
theorem randomAccess_ended (hn : c.cells.length < 2 ^ 32) (ha : c.after = []) (hr : c.room = 0) (hq : q.toNat ≤ c.pos) :
    RandomAccess c.cells.length (memStrm op c) q true
      ⟨op, flexxdrmemOps, ⟨c.cells, q.toNat, .ofNat 32 (c.pos - c.room - q.toNat)⟩⟩ := by
  have hp := pos_add_room ha
  have hrem : c.pos - c.room - q.toNat = c.cells.length - q.toNat := by omega
  refine ⟨⟨fun _ => by omega, fun _ => rfl⟩, ?_, ?_, ?_, ?_, ?_⟩
  · intro _
    show Except.ok (BitVec.ofNat 32 q.toNat) = _
    rw [BitVec.ofNat_toNat, BitVec.setWidth_eq]
  · intro _
    show (BitVec.ofNat 32 _).toNat = _
    rw [BitVec.toNat_ofNat, Nat.mod_eq_of_lt (by omega), hrem]
  · intro _ len hl
    rw [hrem, strm_at op hn (by omega)]
    refine ⟨_, getbytes_room ?_ (List.take_append_drop len.toNat _).symm⟩
    exact List.length_take_of_le (by rw [List.length_drop]; exact hl)
  · intro he
    cases he
  · intro hg
    rw [getpos_cursor] at hg
    injection hg with hg
    have hqp : q.toNat = c.pos := by rw [← hg, toNat_pos hn ha]
    refine ⟨rfl, ?_⟩
    rw [hqp, hr, Nat.sub_zero, Nat.sub_self]
    simp only [memStrm, hr]

theorem randomAccess_cursor (hn : c.cells.length < 2 ^ 32) (ha : c.after = []) (q : Word) :
    (∃ ok X', flexxdrSetpos (memStrm op c) q = .ok (ok, X') ∧
      RandomAccess c.cells.length (memStrm op c) q ok X') ↔ c.cells.length < q.toNat ∨ c.room = 0 := by
  have hp := pos_add_room ha
  have hs := setpos_cursor op hn q
  constructor
  · rintro ⟨ok, X', h, hra⟩
    by_contra hc
    by_cases hq : q.toNat + c.room ≤ c.pos
    · -- It succeeds, with too few bytes left.
      rw [if_pos hq] at hs
      rw [hs] at h
      cases h
      have hrem := hra.remaining rfl
      simp only [BitVec.toNat_ofNat] at hrem
      rw [Nat.mod_eq_of_lt (by omega)] at hrem
      omega
    · -- It refuses a position that is in the buffer.
      rw [if_neg hq] at hs
      rw [hs] at h
      cases h
      have hf := hra.succeeds.mpr (by omega)
      cases hf
  · intro hc
    by_cases hq : q.toNat + c.room ≤ c.pos
    · rw [if_pos hq] at hs
      exact ⟨_, _, hs, randomAccess_ended op hn ha (by omega) (by omega)⟩
    · rw [if_neg hq] at hs
      exact ⟨_, _, hs, randomAccess_refused op hn ha (by omega)⟩

end Tail

/-- On a stream that has only gone forward, `setpos` is right exactly for the positions past the end of the buffer, and
for every position once no bytes are left. -/
theorem randomAccess_iff (buf : List Byte) (hn : buf.length < 2 ^ 32) (op : FlexxdrOp) (ops : List MemOp)
    (hf : ∀ o ∈ ops, o.Forward) (q : Word) :
    ∃ X, run memStep (flexxdrmemCreate buf (.ofNat 32 buf.length) op) ops = some X ∧
      ((∃ ok X', flexxdrSetpos X q = .ok (ok, X') ∧ RandomAccess buf.length X q ok X') ↔
        buf.length < q.toNat ∨ X.strm.fHandy.toNat = 0) := by
  have hstep : ∀ o ∈ ops, ∀ X, AtTail buf.length X → ∃ X', memStep X o = some X' ∧ AtTail buf.length X' :=
    fun o ho X hX => memStep_atTail (hf o ho) X hX
  obtain ⟨X, hr, op', c, rfl, hc, ha⟩ := exists_run hstep (atTail_create buf hn op)
  refine ⟨_, hr, ?_⟩
  rw [toNat_handy, ← hc]
  exact randomAccess_cursor op' (by omega) ha q

theorem randomAccess_iff_word :
    ∃ X, run memStep (flexxdrmemCreate [0, 0, 0, 1] 4 .decode) [.getlong] = some X ∧
      ((∃ ok X', flexxdrSetpos X 2 = .ok (ok, X') ∧ RandomAccess 4 X 2 ok X') ↔
        4 < (2 : Word).toNat ∨ X.strm.fHandy.toNat = 0) := by
  refine randomAccess_iff [0, 0, 0, 1] (by decide) .decode [.getlong] ?_ 2
  intro o ho
  cases List.mem_singleton.mp ho
  exact trivial

/-- On a fresh stream `setpos (getpos ())` fails. -/
theorem setpos_start_refused :
    ¬ ∃ ok X', flexxdrSetpos (flexxdrmemCreate [0, 0, 0, 1] 4 .decode) 0 = .ok (ok, X') ∧
      RandomAccess 4 (flexxdrmemCreate [0, 0, 0, 1] 4 .decode) 0 ok X' := by
  rintro ⟨ok, X', h, hra⟩
  have hok : ok = true := (hra.here rfl).1
  subst hok
  cases h

end Cornflakes.Flexrpc

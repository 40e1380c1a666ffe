import Mathlib.Algebra.Ring.Int.Defs
import Cornflakes.Flexrpc.Xdr

/-!
# The other primitive codecs (`flexxdr.c`)

`flexxdrInt`, `flexxdrLong`, `flexxdrChar`, `flexxdrOpaque` and `flexxdrBytes`. On a memory stream each of them writes
the bytes of its object (`int_puts`, `long_puts`, `char_puts`, `opaque_puts`, `bytes_puts`), reads them back whatever
follows (`int_takes`, `long_takes`, `char_takes`, `opaque_takes`, `bytes_takes`), and returns FALSE when they are cut
short (`int_starves`, `long_starves`, `char_starves`, `opaque_starves`, `bytes_starves`). What `long` and
`unsigned long` hold beyond 32 bits is refused (`long_refused`, `uLong_refused_wide`).
-/

set_option autoImplicit false

namespace Cornflakes.Flexrpc

open Wire

variable {σ : Type}

/-! ## Codecs -/

def flexxdrInt (X : Flexxdr σ) (ip : Word) : Except Fault (Outcome σ Word) :=
  match X.fOp with
  | .encode => do
    let (ok, X) ← flexxdrPutlong X (ip.signExtend 64)
    return (ok, ip, X)
  | .decode => do
    match ← flexxdrGetlong X with
    | (none, X) => return (false, ip, X)
    | (some l, X) => return (true, l.setWidth 32, X)
  | .free => .ok (true, ip, X)

def flexxdrLong (X : Flexxdr σ) (lp : ULong) : Except Fault (Outcome σ ULong) :=
  if X.fOp = .encode ∧ (lp.setWidth 32).signExtend 64 = lp then do
    let (ok, X) ← flexxdrPutlong X lp
    return (ok, lp, X)
  else if X.fOp = .decode then do
    match ← flexxdrGetlong X with
    | (none, X) => return (false, lp, X)
    | (some l, X) => return (true, l, X)
  else .ok (false, lp, X)

/-- `char` is signed. -/
def flexxdrChar (X : Flexxdr σ) (cp : Byte) : Except Fault (Outcome σ Byte) := do
  let (ok, i, X) ← flexxdrInt X (cp.signExtend 32)
  if !ok then return (false, cp, X)
  else return (true, i.setWidth 8, X)

/-- The bytes that round `cnt` up to whole units. -/
def rndup (cnt : Word) : Word := if cnt % 4 > 0 then 4 - cnt % 4 else cnt % 4

def flexxdrZero : List Byte := [0, 0, 0, 0]

/-- `cp` is what the buffer at `cp` holds. The padding goes to a place of its own, `crud`. -/
def flexxdrOpaque (X : Flexxdr σ) (cp : List Byte) (cnt : Word) : Except Fault (Outcome σ (List Byte)) :=
  if cnt = 0 then .ok (true, cp, X)
  else
    match X.fOp with
    | .decode => do
      let (ok, bs, X) ← flexxdrGetbytes X cnt
      match Block.write cp 0 bs with
      | none => .error .outOfBounds
      | some cp =>
        if !ok then return (false, cp, X)
        else if rndup cnt = 0 then return (true, cp, X)
        else do
          let (ok, _, X) ← flexxdrGetbytes X (rndup cnt)
          return (ok, cp, X)
    | .encode => do
      let (ok, X) ← flexxdrPutbytes X cp cnt
      if !ok then return (false, cp, X)
      else if rndup cnt = 0 then return (true, cp, X)
      else do
        let (ok, X) ← flexxdrPutbytes X flexxdrZero (rndup cnt)
        return (ok, cp, X)
    | .free => .ok (true, cp, X)

/-- `mem_alloc`: a block of the size that was asked for, whatever it holds, or NULL. -/
structure Allocator where
  memAlloc : Word → Option (List Byte)
  length_memAlloc : ∀ n bs, memAlloc n = some bs → bs.length = n.toNat

/-- `cpp` is NULL or what the buffer at `*cpp` holds. -/
def flexxdrBytes (A : Allocator) (X : Flexxdr σ) (cpp : Option (List Byte)) (sizep maxsize : Word) :
    Except Fault (Outcome σ (Option (List Byte) × Word)) := do
  let (ok, nodesize, X) ← flexxdrUInt X sizep
  if !ok then return (false, (cpp, nodesize), X)
  else if nodesize > maxsize ∧ X.fOp ≠ .free then return (false, (cpp, nodesize), X)
  else
    match X.fOp with
    | .decode =>
      if nodesize = 0 then return (true, (cpp, nodesize), X)
      else
        match cpp.or (A.memAlloc nodesize) with
        | none => return (false, (none, nodesize), X)
        | some sp => onField (flexxdrOpaque X sp nodesize) fun sp => (some sp, nodesize)
    | .encode => onField (flexxdrOpaque X (cpp.getD []) nodesize) fun _ => (cpp, nodesize)
    | .free => return (true, (cpp, nodesize), X)

/-! ## Words -/

theorem int_puts (ip : Word) : Puts (memStrm .encode) (fun X => flexxdrInt X ip) ip (toBytes ip) := enum_puts ip

theorem int_takes (ip w : Word) : Takes (memStrm .decode) (fun X => flexxdrInt X ip) w (toBytes w) := enum_takes ip w

theorem enum_starves (ep w : Word) : Starves (memStrm .decode) (fun X => flexxdrEnum X ep) (toBytes w) :=
  Short.starves fun c hc => ⟨c, enum_short ep hc⟩

theorem int_starves (ip w : Word) : Starves (memStrm .decode) (fun X => flexxdrInt X ip) (toBytes w) :=
  enum_starves ip w

theorem uLong_starves (ulp : ULong) (w : Word) :
    Starves (memStrm .decode) (fun X => flexxdrULong X ulp) (toBytes w) :=
  Short.starves fun c hc => ⟨c, uLong_short ulp hc⟩

/-! ## `long` and `unsigned long` -/

/-- A long survives `int32_t` exactly when it lies between its bounds. -/
theorem signExtend_fits (lp : ULong) :
    (lp.setWidth 32).signExtend 64 = lp ↔ -2 ^ 31 ≤ lp.toInt ∧ lp.toInt < 2 ^ 31 := by
  have hb : (lp.setWidth 32).toInt = lp.toInt.bmod (2 ^ 32) := by
    rw [BitVec.toInt_setWidth, BitVec.toInt_eq_toNat_bmod lp, Int.bmod_bmod_of_dvd]
    exact ⟨2 ^ 32, rfl⟩
  rw [← BitVec.toInt_inj, BitVec.toInt_signExtend_of_le (Nat.le_of_ble_eq_true rfl), hb]
  constructor
  · intro h
    have hl := Int.le_bmod (x := lp.toInt) (m := 2 ^ 32) (Nat.two_pow_pos 32)
    have hu := Int.bmod_lt (x := lp.toInt) (m := 2 ^ 32) (Nat.two_pow_pos 32)
    omega
  · rintro ⟨hl, hu⟩
    exact Int.bmod_eq_of_le (by omega) (by omega)

theorem long_refused {X : Flexxdr σ} (hX : X.fOp = .encode) {lp : ULong}
    (h : lp.toInt < -2 ^ 31 ∨ 2 ^ 31 ≤ lp.toInt) : flexxdrLong X lp = .ok (false, lp, X) := by
  have hf : ¬ (X.fOp = .encode ∧ (lp.setWidth 32).signExtend 64 = lp) := by
    rw [signExtend_fits]
    omega
  have hd : ¬ X.fOp = .decode := by
    rw [hX]
    intro hd
    cases hd
  unfold flexxdrLong
  rw [if_neg hf, if_neg hd]

theorem uLong_refused_wide {X : Flexxdr σ} (hX : X.fOp = .encode) {ulp : ULong} (h : 2 ^ 32 ≤ ulp.toNat) :
    flexxdrULong X ulp = .ok (false, ulp, X) := by
  have hf : (ulp.setWidth 32).setWidth 64 ≠ ulp := fun e => absurd ((setWidth_fits ulp).mp e) (by omega)
  simp only [flexxdrULong, hX, if_pos hf]

theorem long_puts {lp : ULong} (h : (lp.setWidth 32).signExtend 64 = lp) :
    Puts (memStrm .encode) (fun X => flexxdrLong X lp) lp (toBytes (lp.setWidth 32)) := by
  intro c hc
  simp only [flexxdrLong, memStrm_fOp, h, and_self, if_true, putlong_room _ hc, ok_bind, pure_eq_ok]

theorem long_takes (lp : ULong) (w : Word) :
    Takes (memStrm .decode) (fun X => flexxdrLong X lp) (w.signExtend 64) (toBytes w) := by
  intro c r h
  simp only [flexxdrLong, memStrm_fOp, reduceCtorEq, false_and, if_false, if_true, getlong_word h, ok_bind, pure_eq_ok,
    length_toBytes]

theorem long_starves (lp : ULong) (w : Word) :
    Starves (memStrm .decode) (fun X => flexxdrLong X lp) (toBytes w) := by
  refine Short.starves (v := lp) fun c hc => ⟨c, ?_⟩
  simp only [flexxdrLong, memStrm_fOp, reduceCtorEq, false_and, if_false, if_true, getlong_short hc, ok_bind,
    pure_eq_ok]

/-! ## `char` -/

theorem char_puts (cp : Byte) :
    Puts (memStrm .encode) (fun X => flexxdrChar X cp) cp (toBytes (cp.signExtend 32)) := by
  intro c hc
  have hi := int_puts (cp.signExtend 32) c hc
  simp only at hi
  simp only [flexxdrChar, hi, ok_bind, Bool.not_true, Bool.false_eq_true, if_false, pure_eq_ok,
    setWidth_signExtend cp (show 8 ≤ 32 by omega)]

theorem char_takes (cp cp' : Byte) :
    Takes (memStrm .decode) (fun X => flexxdrChar X cp) cp' (toBytes (cp'.signExtend 32)) := by
  intro c r h
  have hi := int_takes (cp.signExtend 32) (cp'.signExtend 32) c r h
  simp only at hi
  simp only [flexxdrChar, hi, ok_bind, Bool.not_true, Bool.false_eq_true, if_false, pure_eq_ok,
    setWidth_signExtend cp' (show 8 ≤ 32 by omega)]

theorem char_starves (cp : Byte) (w : Word) : Starves (memStrm .decode) (fun X => flexxdrChar X cp) (toBytes w) := by
  intro c q hq h
  obtain ⟨v, c', hi⟩ := int_starves (cp.signExtend 32) w c q hq h
  simp only at hi
  exact ⟨cp, c', by simp only [flexxdrChar, hi, ok_bind, Bool.not_false, if_true, pure_eq_ok]⟩

/-! ## `u_int` -/

theorem uInt_puts (up : Word) : Puts (memStrm .encode) (fun X => flexxdrUInt X up) up (toBytes up) := by
  intro c hc
  simp only [flexxdrUInt, memStrm_fOp, putlong_room _ hc, setWidth_setWidth up (show 32 ≤ 64 by omega), ok_bind,
    pure_eq_ok]

theorem uInt_takes (up w : Word) : Takes (memStrm .decode) (fun X => flexxdrUInt X up) w (toBytes w) := by
  intro c r h
  simp only [flexxdrUInt, memStrm_fOp, getlong_word h, setWidth_signExtend w (show 32 ≤ 64 by omega), ok_bind,
    pure_eq_ok, length_toBytes]

theorem uInt_full {c : MemCursor} (up : Word) (h : c.room < 4) :
    flexxdrUInt (memStrm .encode c) up = .ok (false, up, memStrm .encode c) := by
  simp only [flexxdrUInt, memStrm_fOp, putlong_full _ h, ok_bind, pure_eq_ok]

theorem uInt_short {c : MemCursor} (up : Word) (h : c.room < 4) :
    flexxdrUInt (memStrm .decode c) up = .ok (false, up, memStrm .decode c) := by
  simp only [flexxdrUInt, memStrm_fOp, getlong_short h, ok_bind, pure_eq_ok]

theorem uInt_starves (up w : Word) : Starves (memStrm .decode) (fun X => flexxdrUInt X up) (toBytes w) :=
  Short.starves fun c hc => ⟨c, uInt_short up hc⟩

/-! ## Opaque bytes -/

theorem toNat_rndup (cnt : Word) : (rndup cnt).toNat = (4 - cnt.toNat % 4) % 4 := by
  have hm : (cnt % 4).toNat = cnt.toNat % 4 := BitVec.toNat_umod
  have hlt : cnt % 4 > 0 ↔ 0 < cnt.toNat % 4 := by
    rw [gt_iff_lt, BitVec.lt_def, hm]
    rfl
  have h4 : (4 : Word).toNat = 4 := rfl
  unfold rndup
  split
  next h =>
    rw [hlt] at h
    rw [BitVec.toNat_sub, hm, h4]
    omega
  next h =>
    rw [hlt] at h
    omega

/-- Bytes and the zeros that fill them up to whole units. -/
def padded (bs : List Byte) : List Byte := bs ++ List.replicate ((4 - bs.length % 4) % 4) 0

theorem length_padded (bs : List Byte) : (padded bs).length = bs.length + (4 - bs.length % 4) % 4 := by
  rw [padded, List.length_append, List.length_replicate]

theorem length_padded_mod (bs : List Byte) : (padded bs).length % 4 = 0 := by
  rw [length_padded]
  omega

/-- The padding of `cnt` bytes is empty when the routine skips it. -/
theorem padded_eq {cnt : Word} {bs : List Byte} (h : bs.length = cnt.toNat) :
    padded bs = bs ++ List.replicate (rndup cnt).toNat 0 := by
  rw [padded, toNat_rndup, h]

theorem opaque_zero (X : Flexxdr σ) (cp : List Byte) : flexxdrOpaque X cp 0 = .ok (true, cp, X) := if_pos rfl

theorem block_write_front (cp : List Byte) {bs : List Byte} (h : bs.length ≤ cp.length) :
    Block.write cp 0 bs = some (bs ++ cp.drop bs.length) := by
  unfold Block.write
  rw [if_pos (by omega), List.take_zero, List.nil_append, Nat.zero_add]

section Encode

variable {cp : List Byte} {cnt : Word} {c : MemCursor}

/-- Bytes that do not fit are not written. -/
theorem opaque_unsent (cp : List Byte) (hr : c.room < cnt.toNat) :
    flexxdrOpaque (memStrm .encode c) cp cnt = .ok (false, cp, memStrm .encode c) := by
  have h0 : cnt ≠ 0 := by
    rintro rfl
    exact absurd hr (Nat.not_lt_zero _)
  simp only [flexxdrOpaque, if_neg h0, memStrm_fOp, putbytes_full cp hr, ok_bind, Bool.not_false, if_true, pure_eq_ok]

/-- The zeros that fill up to whole units. -/
theorem padding_room (h : (rndup cnt).toNat ≤ c.room) : flexxdrPutbytes (memStrm .encode c) flexxdrZero (rndup cnt) =
    .ok (true, memStrm .encode (c.write (List.replicate (rndup cnt).toNat 0))) := by
  have hle : (rndup cnt).toNat ≤ 4 := by
    rw [toNat_rndup]
    omega
  have ht : flexxdrZero.take (rndup cnt).toNat = List.replicate (rndup cnt).toNat 0 := by
    rw [show flexxdrZero = List.replicate 4 0 from rfl, List.take_replicate, Nat.min_eq_left hle]
  rw [putbytes_room hle h, ht]

/-- The bytes are written, and it is the padding that decides. -/
theorem opaque_sent (h : cnt.toNat ≤ cp.length) (hr : cnt.toNat ≤ c.room) :
    flexxdrOpaque (memStrm .encode c) cp cnt =
      flexxdrPutbytes (memStrm .encode (c.write (cp.take cnt.toNat))) flexxdrZero (rndup cnt) >>= fun r =>
        .ok (r.1, cp, r.2) := by
  have hbs : flexxdrPutbytes (memStrm .encode c) cp cnt = _ := putbytes_room h hr
  by_cases hz : rndup cnt = 0
  · -- No padding is written as an empty one.
    have hn : flexxdrPutbytes (memStrm .encode (c.write (cp.take cnt.toNat))) flexxdrZero 0 = _ :=
      putbytes_room (Nat.zero_le _) (Nat.zero_le _)
    rw [show (0 : Word).toNat = 0 from rfl, List.take_zero, Cursor.write_nil] at hn
    rw [hz, hn, ok_bind]
    by_cases h0 : cnt = 0
    · subst h0
      rw [show (0 : Word).toNat = 0 from rfl, List.take_zero, Cursor.write_nil]
      exact opaque_zero _ cp
    · simp only [flexxdrOpaque, if_neg h0, memStrm_fOp, hbs, ok_bind, Bool.not_true, Bool.false_eq_true, if_false,
        if_pos hz, pure_eq_ok]
  · have h0 : cnt ≠ 0 := by
      rintro rfl
      exact hz rfl
    simp only [flexxdrOpaque, if_neg h0, memStrm_fOp, hbs, ok_bind, Bool.not_true, Bool.false_eq_true, if_false,
      if_neg hz, pure_eq_ok]

theorem opaque_puts (h : cnt.toNat ≤ cp.length) :
    Puts (memStrm .encode) (fun X => flexxdrOpaque X cp cnt) cp (padded (cp.take cnt.toNat)) := by
  intro c hc
  have hl : (cp.take cnt.toNat).length = cnt.toNat := List.length_take_of_le h
  rw [padded_eq hl] at hc ⊢
  rw [List.length_append, List.length_replicate, hl] at hc
  have hz : flexxdrPutbytes (memStrm .encode (c.write (cp.take cnt.toNat))) flexxdrZero (rndup cnt) = _ :=
    padding_room (by rw [Cursor.room_write, hl]; omega)
  simp only [opaque_sent h (show cnt.toNat ≤ c.room by omega), hz, ok_bind, Cursor.write_write]

end Encode

section Decode

variable {cp bs r : List Byte} {cnt : Word} {c : MemCursor}

/-- Bytes that are not there are not stored. -/
theorem opaque_unread (hr : c.room < cnt.toNat) :
    flexxdrOpaque (memStrm .decode c) cp cnt = .ok (false, cp, memStrm .decode c) := by
  have h0 : cnt ≠ 0 := by
    rintro rfl
    exact absurd hr (Nat.not_lt_zero _)
  have hw : Block.write cp 0 [] = _ := block_write_front cp (Nat.zero_le _)
  simp only [flexxdrOpaque, if_neg h0, memStrm_fOp, getbytes_short hr, hw, ok_bind, Bool.not_false, if_true, pure_eq_ok,
    List.nil_append, List.length_nil, List.drop_zero]

/-- The bytes are stored, and it is the padding that decides. -/
theorem opaque_read (hl : bs.length = cnt.toNat) (h : cnt.toNat ≤ cp.length) (hc : c.ahead = bs ++ r) :
    flexxdrOpaque (memStrm .decode c) cp cnt =
      flexxdrGetbytes (memStrm .decode (c.advance cnt.toNat)) (rndup cnt) >>= fun g =>
        .ok (g.1, bs ++ cp.drop cnt.toNat, g.2.2) := by
  have hb : flexxdrGetbytes (memStrm .decode c) cnt = _ := getbytes_room hl hc
  have hw : Block.write cp 0 bs = _ := block_write_front cp (by omega)
  rw [hl] at hw
  -- No padding is read as an empty one.
  have hn : flexxdrGetbytes (memStrm .decode (c.advance cnt.toNat)) 0 = _ :=
    getbytes_room (show ([] : List Byte).length = (0 : Word).toNat from rfl) (List.nil_append _).symm
  rw [show (0 : Word).toNat = 0 from rfl, Cursor.advance_zero] at hn
  by_cases hz : rndup cnt = 0
  · rw [hz, hn, ok_bind]
    by_cases h0 : cnt = 0
    · subst h0
      have hbs : bs = [] := List.eq_nil_of_length_eq_zero hl
      rw [hbs, show (0 : Word).toNat = 0 from rfl, Cursor.advance_zero]
      exact opaque_zero _ cp
    · simp only [flexxdrOpaque, if_neg h0, memStrm_fOp, hb, hw, ok_bind, Bool.not_true, Bool.false_eq_true, if_false,
        if_pos hz, pure_eq_ok]
  · have h0 : cnt ≠ 0 := by
      rintro rfl
      exact hz rfl
    simp only [flexxdrOpaque, if_neg h0, memStrm_fOp, hb, hw, ok_bind, Bool.not_true, Bool.false_eq_true, if_false,
      if_neg hz, pure_eq_ok]

theorem opaque_takes (hl : bs.length = cnt.toNat) (h : cnt.toNat ≤ cp.length) :
    Takes (memStrm .decode) (fun X => flexxdrOpaque X cp cnt) (bs ++ cp.drop cnt.toNat) (padded bs) := by
  intro c r hc
  rw [padded_eq hl, List.append_assoc] at hc
  have hz : flexxdrGetbytes (memStrm .decode (c.advance cnt.toNat)) (rndup cnt) = _ :=
    getbytes_room List.length_replicate (by rw [Cursor.ahead_advance, hc, ← hl, List.drop_left])
  rw [padded_eq hl, List.length_append, List.length_replicate, hl]
  simp only [opaque_read hl h hc, hz, ok_bind, Cursor.advance_advance]

theorem opaque_starves (hl : bs.length = cnt.toNat) (h : cnt.toNat ≤ cp.length) :
    Starves (memStrm .decode) (fun X => flexxdrOpaque X cp cnt) (padded bs) := by
  intro c q hq hc
  rw [padded_eq hl] at hc
  rcases cut_cases hc with ⟨b, hb0, hb⟩ | ⟨a, ha, hz⟩
  · -- The bytes themselves are cut.
    have hb0 : 0 < b.length := List.length_pos_iff.mpr hb0
    have hs : c.room < cnt.toNat := by
      rw [← hl, hb, List.length_append, Cursor.room]
      omega
    exact ⟨cp, c, opaque_unread hs⟩
  · -- The padding is.
    have hq0 : 0 < q.length := List.length_pos_iff.mpr hq
    have hlen := congrArg List.length hz
    rw [List.length_replicate, List.length_append] at hlen
    have hs : (c.advance cnt.toNat).room < (rndup cnt).toNat := by
      rw [Cursor.room, Cursor.ahead_advance, ha, ← hl, List.drop_left]
      omega
    refine ⟨bs ++ cp.drop cnt.toNat, c.advance cnt.toNat, ?_⟩
    simp only [opaque_read hl h ha, getbytes_short hs, ok_bind]

end Decode

/-! ## Counted bytes -/

section Bytes

variable (A : Allocator)

theorem bytes_puts {cpp : Option (List Byte)} {size maxsize : Word} (hm : size ≤ maxsize)
    (h : size.toNat ≤ (cpp.getD []).length) :
    Puts (memStrm .encode) (fun X => flexxdrBytes A X cpp size maxsize) (cpp, size)
      (toBytes size ++ padded ((cpp.getD []).take size.toNat)) := by
  intro c hc
  rw [List.length_append, length_toBytes] at hc
  have hu := uInt_puts size c (by rw [length_toBytes]; omega)
  have ho := opaque_puts h (c.write (toBytes size)) (by rw [Cursor.room_write, length_toBytes]; omega)
  have hg : ¬ (size > maxsize ∧ FlexxdrOp.encode ≠ .free) := fun hg => absurd hm (BitVec.not_le.mpr hg.1)
  simp only at hu ho
  simp only [flexxdrBytes, hu, ok_bind, Bool.not_true, Bool.false_eq_true, if_false, memStrm_fOp, if_neg hg, ho,
    onField_ok, Cursor.write_write]

/-- The buffer that `size` bytes are received into: the caller's, or a new one. -/
def Allocator.target (cpp : Option (List Byte)) (size : Word) : Option (List Byte) :=
  if size = 0 then cpp else cpp.or (A.memAlloc size)

/-- There is a buffer and it is large enough. -/
def Allocator.Holds (cpp : Option (List Byte)) (size : Word) : Prop :=
  size = 0 ∨ ∃ sp, A.target cpp size = some sp ∧ size.toNat ≤ sp.length

/-- The buffer afterwards. -/
def Allocator.filled (cpp : Option (List Byte)) (size : Word) (bs : List Byte) : Option (List Byte) :=
  if size = 0 then cpp else (A.target cpp size).map fun sp => bs ++ sp.drop size.toNat

variable {A}

/-- Once the length has been read and passed, the rest is the opaque body. -/
theorem bytes_decode (cpp : Option (List Byte)) (sizep : Word) {size maxsize : Word} (hm : size ≤ maxsize) {c : MemCursor}
    {r : List Byte} (hc : c.ahead = toBytes size ++ r) :
    flexxdrBytes A (memStrm .decode c) cpp sizep maxsize =
      if size = 0 then .ok (true, (cpp, size), memStrm .decode (c.advance 4))
      else
        match cpp.or (A.memAlloc size) with
        | none => .ok (false, (none, size), memStrm .decode (c.advance 4))
        | some sp => onField (flexxdrOpaque (memStrm .decode (c.advance 4)) sp size) fun sp => (some sp, size) := by
  have hu := uInt_takes sizep size c r hc
  have hg : ¬ (size > maxsize ∧ FlexxdrOp.decode ≠ .free) := fun hg => absurd hm (BitVec.not_le.mpr hg.1)
  simp only [length_toBytes] at hu
  simp only [flexxdrBytes, hu, ok_bind, Bool.not_true, Bool.false_eq_true, if_false, memStrm_fOp, if_neg hg,
    pure_eq_ok]

theorem bytes_takes {cpp : Option (List Byte)} {size maxsize : Word} (sizep : Word) (hm : size ≤ maxsize)
    {bs : List Byte} (hl : bs.length = size.toNat) (h : A.Holds cpp size) :
    Takes (memStrm .decode) (fun X => flexxdrBytes A X cpp sizep maxsize) (A.filled cpp size bs, size)
      (toBytes size ++ padded bs) := by
  intro c r hc
  rw [List.append_assoc] at hc
  have hd := bytes_decode (A := A) cpp sizep hm hc
  simp only [hd]
  by_cases h0 : size = 0
  · have hn : bs = [] := List.eq_nil_of_length_eq_zero (by rw [hl, h0]; rfl)
    rw [if_pos h0, Allocator.filled, if_pos h0, hn]
    rfl
  · obtain ⟨sp, ht, hs⟩ := h.resolve_left h0
    have ht' : cpp.or (A.memAlloc size) = some sp := by rwa [Allocator.target, if_neg h0] at ht
    have ho := opaque_takes hl hs (c.advance 4) r (by rw [Cursor.ahead_advance, hc, drop_toBytes])
    simp only at ho
    rw [if_neg h0, Allocator.filled, if_neg h0, ht, ht']
    simp only [ho, onField_ok, Option.map_some, Cursor.advance_advance, List.length_append, length_toBytes]

theorem bytes_starves {cpp : Option (List Byte)} {size maxsize : Word} (sizep : Word) (hm : size ≤ maxsize)
    {bs : List Byte} (hl : bs.length = size.toNat) (h : A.Holds cpp size) :
    Starves (memStrm .decode) (fun X => flexxdrBytes A X cpp sizep maxsize) (toBytes size ++ padded bs) := by
  intro c q hq hc
  rcases cut_cases hc with ⟨b, hb0, hb⟩ | ⟨a, ha, hp⟩
  · -- The length is cut.
    obtain ⟨v, c', hu⟩ := uInt_starves sizep size c b hb0 hb
    simp only at hu
    exact ⟨(cpp, v), c', by simp only [flexxdrBytes, hu, ok_bind, Bool.not_false, if_true, pure_eq_ok]⟩
  · -- The length is there, and its bytes are cut.
    have hd := bytes_decode (A := A) cpp sizep hm ha
    have h0 : size ≠ 0 := by
      intro h0
      have hn : bs = [] := List.eq_nil_of_length_eq_zero (by rw [hl, h0]; rfl)
      rw [hn] at hp
      exact hq (List.append_eq_nil_iff.mp hp.symm).2
    obtain ⟨sp, ht, hsp⟩ := h.resolve_left h0
    have ht' : cpp.or (A.memAlloc size) = some sp := by rwa [Allocator.target, if_neg h0] at ht
    have hb : (c.advance 4).ahead = a := by rw [Cursor.ahead_advance, ha, drop_toBytes]
    obtain ⟨v, c', ho⟩ := opaque_starves hl hsp (c.advance 4) q hq (by rw [hb]; exact hp)
    simp only at ho
    exact ⟨(some v, size), c', by simp only [hd, if_neg h0, ht', ho, onField_ok]⟩

end Bytes

end Cornflakes.Flexrpc

import Cornflakes.Flexrpc.Mem

/-!
# The primitive codecs (`flexxdr.c`)

`flexxdrVoid`, `flexxdrEnum`, `flexxdrULong`, `flexxdrUInt` and `flexxdrUnion`. On a memory stream a codec of a word
writes it or reads it and moves on by four bytes, or refuses and leaves everything alone: `enum_encode`, `enum_full`,
`enum_decode`, `enum_short`, and for `unsigned long` the same with the range check of the encoder (`uLong_encode`,
`uLong_refused`, `uLong_decode`, `uLong_short`).
-/

set_option autoImplicit false

namespace Cornflakes.Flexrpc

open Wire

variable {σ α : Type}

/-! ## Codecs -/

/-- Called as a procedure, with a handle and an object that it does not look at. -/
def flexxdrVoid (X : Flexxdr σ) (a : α) : Except Fault (Outcome σ α) := .ok (true, a, X)

/-- `flexxdr_void` as a procedure; it looks at none of its arguments. -/
def voidProc (addr : ULong) : FlexxdrProc σ α := ⟨addr, flexxdrVoid, fun X _ => flexxdrVoid X ()⟩

def flexxdrEnum (X : Flexxdr σ) (ep : Word) : Except Fault (Outcome σ Word) :=
  match X.fOp with
  | .encode => do
    let (ok, X) ← flexxdrPutlong X (ep.signExtend 64)
    return (ok, ep, X)
  | .decode => do
    match ← flexxdrGetlong X with
    | (none, X) => return (false, ep, X)
    | (some l, X) => return (true, l.setWidth 32, X)
  | .free => .ok (true, ep, X)

def flexxdrULong (X : Flexxdr σ) (ulp : ULong) : Except Fault (Outcome σ ULong) :=
  match X.fOp with
  | .decode => do
    match ← flexxdrGetlong X with
    | (none, X) => return (false, ulp, X)
    | (some tmp, X) => return (true, (tmp.setWidth 32).setWidth 64, X)
  | .encode =>
    if (ulp.setWidth 32).setWidth 64 ≠ ulp then .ok (false, ulp, X)
    else do
      let (ok, X) ← flexxdrPutlong X ulp
      return (ok, ulp, X)
  | .free => .ok (true, ulp, X)

def flexxdrUInt (X : Flexxdr σ) (up : Word) : Except Fault (Outcome σ Word) :=
  match X.fOp with
  | .encode => do
    let (ok, X) ← flexxdrPutlong X (up.setWidth 64)
    return (ok, up, X)
  | .decode => do
    match ← flexxdrGetlong X with
    | (none, X) => return (false, up, X)
    | (some l, X) => return (true, l.setWidth 32, X)
  | .free => .ok (true, up, X)

/-- `struct flexxdr_discrim`: a value of the discriminant and the procedure of its arm, NULL in the end marker. -/
structure FlexxdrDiscrim (σ α : Type) where
  value : Word
  proc : Option (Flexxdr σ → α → Except Fault (Outcome σ α))

/-- The loop of `flexxdr_union`: the procedure of the first entry for `dscm` before the end marker. -/
def flexxdrChoice (dscm : Word) : List (FlexxdrDiscrim σ α) →
    Except Fault (Option (Flexxdr σ → α → Except Fault (Outcome σ α)))
  | [] => .error .outOfBounds
  | d :: choices =>
    match d.proc with
    | none => .ok none
    | some p => if d.value = dscm then .ok (some p) else flexxdrChoice dscm choices

def flexxdrUnion (X : Flexxdr σ) (dscmp : Word) (unp : α) (choices : List (FlexxdrDiscrim σ α))
    (dfault : Option (Flexxdr σ → α → Except Fault (Outcome σ α))) : Except Fault (Outcome σ (Word × α)) := do
  let (ok, dscm, X) ← flexxdrEnum X dscmp
  if !ok then return (false, (dscm, unp), X)
  match ← flexxdrChoice dscm choices with
  | some p => onField (p X unp) (dscm, ·)
  | none =>
    match dfault with
    | none => return (false, (dscm, unp), X)
    | some p => onField (p X unp) (dscm, ·)

/-! ## Faults -/

theorem enum_raises (X : Flexxdr σ) (ep : Word) : Raises Fault.OfStream (flexxdrEnum X ep) := by
  unfold flexxdrEnum
  cases X.fOp with
  | encode => exact (putlong_raises X _).bind fun _ => Raises.ok _
  | decode =>
    refine (getlong_raises X).bind ?_
    rintro ⟨_ | l, X⟩
    · exact Raises.ok _
    · exact Raises.ok _
  | free => exact Raises.ok _

theorem uLong_raises (X : Flexxdr σ) (ulp : ULong) : Raises Fault.OfStream (flexxdrULong X ulp) := by
  unfold flexxdrULong
  cases X.fOp with
  | decode =>
    refine (getlong_raises X).bind ?_
    rintro ⟨_ | l, X⟩
    · exact Raises.ok _
    · exact Raises.ok _
  | encode =>
    dsimp only
    split
    · exact Raises.ok _
    · exact (putlong_raises X ulp).bind fun _ => Raises.ok _
  | free => exact Raises.ok _

/-! ## Words on memory streams -/

section Words

variable {c : MemCursor}

theorem enum_encode (ep : Word) (h : 4 ≤ c.room) :
    flexxdrEnum (memStrm .encode c) ep = .ok (true, ep, memStrm .encode (c.write (toBytes ep))) := by
  simp only [flexxdrEnum, memStrm_fOp, putlong_room _ h, setWidth_signExtend ep (show 32 ≤ 64 by decide), ok_bind,
    pure_eq_ok]

theorem enum_full (ep : Word) (h : c.room < 4) :
    flexxdrEnum (memStrm .encode c) ep = .ok (false, ep, memStrm .encode c) := by
  simp only [flexxdrEnum, memStrm_fOp, putlong_full _ h, ok_bind, pure_eq_ok]

theorem enum_decode (ep : Word) {w : Word} {r : List Byte} (h : c.ahead = toBytes w ++ r) :
    flexxdrEnum (memStrm .decode c) ep = .ok (true, w, memStrm .decode (c.advance 4)) := by
  simp only [flexxdrEnum, memStrm_fOp, getlong_word h, setWidth_signExtend w (show 32 ≤ 64 by decide), ok_bind,
    pure_eq_ok]

theorem enum_short (ep : Word) (h : c.room < 4) :
    flexxdrEnum (memStrm .decode c) ep = .ok (false, ep, memStrm .decode c) := by
  simp only [flexxdrEnum, memStrm_fOp, getlong_short h, ok_bind, pure_eq_ok]

theorem uLong_encode {ulp : ULong} (hu : ulp.toNat < 2 ^ 32) (h : 4 ≤ c.room) :
    flexxdrULong (memStrm .encode c) ulp = .ok (true, ulp, memStrm .encode (c.write (toBytes (ulp.setWidth 32)))) := by
  have hf : ¬ (ulp.setWidth 32).setWidth 64 ≠ ulp := not_not.mpr ((setWidth_fits ulp).mpr hu)
  simp only [flexxdrULong, memStrm_fOp, if_neg hf, putlong_room _ h, ok_bind, pure_eq_ok]

/-- The encoder refuses what does not fit in a word or in the buffer. -/
theorem uLong_refused {ulp : ULong} (h : ¬ (ulp.toNat < 2 ^ 32 ∧ 4 ≤ c.room)) :
    flexxdrULong (memStrm .encode c) ulp = .ok (false, ulp, memStrm .encode c) := by
  by_cases hu : ulp.toNat < 2 ^ 32
  · have hf : ¬ (ulp.setWidth 32).setWidth 64 ≠ ulp := not_not.mpr ((setWidth_fits ulp).mpr hu)
    have hr : c.room < 4 := by omega
    simp only [flexxdrULong, memStrm_fOp, if_neg hf, putlong_full _ hr, ok_bind, pure_eq_ok]
  · have hf : (ulp.setWidth 32).setWidth 64 ≠ ulp := fun e => hu ((setWidth_fits ulp).mp e)
    simp only [flexxdrULong, memStrm_fOp, if_pos hf]

theorem uLong_decode (ulp : ULong) {w : Word} {r : List Byte} (h : c.ahead = toBytes w ++ r) :
    flexxdrULong (memStrm .decode c) ulp = .ok (true, w.setWidth 64, memStrm .decode (c.advance 4)) := by
  simp only [flexxdrULong, memStrm_fOp, getlong_word h, setWidth_signExtend w (show 32 ≤ 64 by decide), ok_bind,
    pure_eq_ok]

theorem uLong_short (ulp : ULong) (h : c.room < 4) :
    flexxdrULong (memStrm .decode c) ulp = .ok (false, ulp, memStrm .decode c) := by
  simp only [flexxdrULong, memStrm_fOp, getlong_short h, ok_bind, pure_eq_ok]

end Words

/-! ## Words as fields of an object -/

theorem enum_puts (ep : Word) : Puts (memStrm .encode) (fun X => flexxdrEnum X ep) ep (toBytes ep) :=
  fun _ hc => enum_encode ep hc

theorem enum_puts_short (ep : Word) : Short (memStrm .encode) (fun X => flexxdrEnum X ep) ep 4 :=
  fun c hc => ⟨c, enum_full ep hc⟩

theorem enum_takes (ep w : Word) : Takes (memStrm .decode) (fun X => flexxdrEnum X ep) w (toBytes w) :=
  fun _ _ h => enum_decode ep h

theorem uLong_puts {ulp : ULong} (hu : ulp.toNat < 2 ^ 32) :
    Puts (memStrm .encode) (fun X => flexxdrULong X ulp) ulp (toBytes (ulp.setWidth 32)) :=
  fun _ hc => uLong_encode hu hc

theorem uLong_puts_short (ulp : ULong) : Short (memStrm .encode) (fun X => flexxdrULong X ulp) ulp 4 :=
  fun c hc => ⟨c, uLong_refused fun h => absurd h.2 (by omega)⟩

theorem uLong_refuses {ulp : ULong} (hu : ¬ ulp.toNat < 2 ^ 32) :
    Refuses (memStrm .encode) (fun X => flexxdrULong X ulp) ulp :=
  fun c => ⟨c, uLong_refused fun h => hu h.1⟩

theorem uLong_takes (ulp : ULong) (w : Word) :
    Takes (memStrm .decode) (fun X => flexxdrULong X ulp) (w.setWidth 64) (toBytes w) :=
  fun _ _ h => uLong_decode ulp h

/-! ## Unions -/

section Union

variable {choices : List (FlexxdrDiscrim FlexxdrMem α)}
  {dfault : Option (Flexxdr FlexxdrMem → α → Except Fault (Outcome FlexxdrMem α))}
  {p : Flexxdr FlexxdrMem → α → Except Fault (Outcome FlexxdrMem α)} {u u' : α} {bs : List Byte}

/-- The arm of the table goes on after the discriminant. -/
theorem union_arm {X X' : Flexxdr FlexxdrMem} {d w : Word} (he : flexxdrEnum X d = .ok (true, w, X'))
    (hc : flexxdrChoice w choices = .ok (some p)) :
    flexxdrUnion X d u choices dfault = onField (p X' u) (w, ·) := by
  unfold flexxdrUnion
  rw [he, ok_bind]
  simp only [Bool.not_true, Bool.false_eq_true, if_false, hc, ok_bind]

theorem union_full {X X' : Flexxdr FlexxdrMem} {d w : Word} (he : flexxdrEnum X d = .ok (false, w, X')) :
    flexxdrUnion X d u choices dfault = .ok (false, (w, u), X') := by
  unfold flexxdrUnion
  rw [he, ok_bind]
  rfl

theorem union_puts {d : Word} (hc : flexxdrChoice d choices = .ok (some p))
    (hp : Puts (memStrm .encode) (fun X => p X u) u' bs) :
    Puts (memStrm .encode) (fun X => flexxdrUnion X d u choices dfault) (d, u') (toBytes d ++ bs) := by
  intro c hr
  rw [List.length_append, length_toBytes] at hr
  have ha := hp (c.write (toBytes d)) (by rw [Cursor.room_write, length_toBytes]; omega)
  simp only at ha
  refine (union_arm (enum_encode d (by omega)) hc).trans ?_
  rw [ha, onField_ok, Cursor.write_write]

theorem union_refuses {d : Word} (hc : flexxdrChoice d choices = .ok (some p))
    (hp : Refuses (memStrm .encode) (fun X => p X u) u) :
    Refuses (memStrm .encode) (fun X => flexxdrUnion X d u choices dfault) (d, u) := by
  intro c
  by_cases hr : 4 ≤ c.room
  · obtain ⟨c', ha⟩ := hp (c.write (toBytes d))
    simp only at ha
    exact ⟨c', (union_arm (enum_encode d hr) hc).trans (by rw [ha, onField_ok])⟩
  · exact ⟨c, union_full (enum_full d (by omega))⟩

theorem union_takes {d w : Word} (hc : flexxdrChoice w choices = .ok (some p))
    (hp : Takes (memStrm .decode) (fun X => p X u) u' bs) :
    Takes (memStrm .decode) (fun X => flexxdrUnion X d u choices dfault) (w, u') (toBytes w ++ bs) := by
  intro c r h
  rw [List.append_assoc] at h
  have ha := hp (c.advance 4) r (by rw [Cursor.ahead_advance, h]; rfl)
  simp only at ha
  refine (union_arm (enum_decode d h) hc).trans ?_
  rw [ha, onField_ok, Cursor.advance_advance, List.length_append, length_toBytes]

end Union

end Cornflakes.Flexrpc

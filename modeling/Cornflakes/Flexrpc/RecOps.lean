import Cornflakes.Flexrpc.Parallel
import Cornflakes.Flexrpc.RecSkip

/-!
# Record streams behind a handle

`flexxdrrec_ops` fills the first four entries of a table of operations. A codec that is written against the table finds
no `f_inline` there, and `flexxdr_callmsg` calls it before it does anything else (`callmsg_rec`): on a record stream it
decodes no header, whatever was received (`not_sameDecode`). But when a memory stream has the words ahead that are left
of a record, `FLEXXDR_GETLONG` gives the same words from both and refuses at the end of both (`delivering_parallel`),
however the record is cut into fragments of words.
-/

set_option autoImplicit false

namespace Cornflakes.Flexrpc

open Wire

variable {ρ ω α β : Type}

/-- `flexxdrrec_ops`. `old` is what the caller's buffer holds where `flexxdrrec_getbytes` moves on without a store. A
`flexxdrrec_putbytes` that does not return is taken for a fault; on a sound stream it returns (`putbytes_returns`). No
pointer into the buffer is ever handed out. -/
def flexxdrrecOps (T : Transport ρ ω) (old : Nat → Byte) : FlexxdrOps (RecStrm ρ ω) where
  fGetlong := some fun s => .ok (flexxdrrecGetlong T s)
  fPutlong := some fun lp s => .ok (flexxdrrecPutlong T s lp)
  fGetbytes := some fun len s =>
    let (ok, cells, s) := flexxdrrecGetbytes T s len.toNat
    .ok (ok, cells.mapIdx fun i c => c.getD (old i), s)
  fPutbytes := some fun addr len s =>
    -- Behind an object that ends early stands one byte that must not be reached.
    match flexxdrrecPutbytes T s ((addr ++ [0]).take len.toNat) with
    | some (ok, s) => if ok ∧ addr.length < len.toNat then .error .outOfBounds else .ok (ok, s)
    | none => .error .outOfBounds
  fGetpostn := none
  fSetpostn := none
  fInline := none
  load _ _ := .error .outOfBounds
  store _ _ _ := .error .outOfBounds

/-- The handle of a record stream. -/
def recStrm (T : Transport ρ ω) (old : Nat → Byte) (op : FlexxdrOp) (s : RecStrm ρ ω) : Flexxdr (RecStrm ρ ω) where
  fOp := op
  fOps := flexxdrrecOps T old
  strm := s

theorem putbytes_returns (T : Transport ρ ω) (old : Nat → Byte) (op : FlexxdrOp) {s : RecStrm ρ ω} (h : RecInv s)
    {addr : List Byte} {len : BitVec 32} (ha : len.toNat ≤ addr.length) :
    ∃ ok s', flexxdrPutbytes (recStrm T old op s) addr len = .ok (ok, recStrm T old op s') := by
  have hl : (addr.take len.toNat).length = len.toNat := List.length_take_of_le ha
  have ht : (addr ++ [0]).take len.toNat = addr.take len.toNat := List.take_append_of_le_length ha
  obtain ⟨ok, s', hp, -⟩ := putbytes_effect T h (addr.take len.toNat) (by rw [hl]; exact len.isLt)
  have hn : ¬ (ok = true ∧ addr.length < len.toNat) := fun hs => absurd hs.2 (Nat.not_lt.mpr ha)
  refine ⟨ok, s', ?_⟩
  simp only [flexxdrPutbytes, recStrm, flexxdrrecOps, ht, hp, if_neg hn]
  rfl

/-! ## Call headers -/

/-- `flexxdr_callmsg` decodes from both streams, with the same result and the same fields. -/
def SameDecode {σ τ : Type} (X : Flexxdr σ) (Y : Flexxdr τ) (m : RpcMsg σ α) (m' : RpcMsg τ β) : Prop :=
  ∃ ok m₁ X₁ m₁' Y₁, flexxdrCallmsg X m = .ok (ok, m₁, X₁) ∧ flexxdrCallmsg Y m' = .ok (ok, m₁', Y₁) ∧
    m₁.callFields = m₁'.callFields

/-- The block is asked for through an entry that is not there. -/
theorem callmsg_rec (T : Transport ρ ω) (old : Nat → Byte) {op : FlexxdrOp} (hop : op ≠ .free) (s : RecStrm ρ ω)
    (m : RpcMsg (RecStrm ρ ω) α) : flexxdrCallmsg (recStrm T old op s) m = .error .nullOp := by
  cases op with
  | encode => rfl
  | decode => rfl
  | free => exact absurd rfl hop

/-- No header is decoded from a record stream as it is from memory. -/
theorem not_sameDecode (T : Transport ρ ω) (old : Nat → Byte) (s : RecStrm ρ ω) (c : MemCursor)
    (m : RpcMsg (RecStrm ρ ω) α) (m' : RpcMsg FlexxdrMem β) :
    ¬ SameDecode (recStrm T old .decode s) (memStrm .decode c) m m' := by
  rintro ⟨ok, m₁, X₁, m₁', Y₁, hr, -, -⟩
  rw [callmsg_rec T old FlexxdrOp.noConfusion s m] at hr
  cases hr

/-- The words of a call header after its direction. -/
def headerBytes : List Byte := words (callWords 1 1 1)

/-- The stream is opened on one last fragment with these words; in memory they are accepted. -/
theorem header_not_decoded :
    (∃ s, flexxdrrecSkiprecord flow (flexxdrrecCreate 0 0 0 (fun _ => 0)
        (record [headerBytes] ++ₛ Stream'.const 0) () fun _ => 0) 1 = some (true, s) ∧
      ¬ SameDecode (recStrm flow (fun _ => 0) .decode s) (memStrm .decode (.ofBuffer headerBytes (by decide)))
        (.zeros : RpcMsg _ Unit) (.zeros : RpcMsg _ Unit)) ∧
    Wire.Returns (flexxdrCallmsg (memStrm .decode (.ofBuffer headerBytes (by decide))) (.zeros : RpcMsg _ Unit)) true := by
  obtain ⟨s, hs, -⟩ := create_opened flow 0 0 0 (fun _ => 0) (record [headerBytes] ++ₛ Stream'.const 0) () (fun _ => 0) 0
  refine ⟨⟨s, hs, ?_⟩, ?_⟩
  · rintro ⟨ok, m₁, X₁, m₁', Y₁, hr, -, -⟩
    rw [callmsg_rec flow (fun _ => 0) FlexxdrOp.noConfusion s .zeros] at hr
    cases hr
  · refine ⟨_, _, callmsg_accepts .zeros (p := 1) (w := 1) (q := 1) (r := []) ?_⟩
    rfl

/-! ## Words -/

section Words

variable {T : Transport ρ ω} {old : Nat → Byte} {e : ρ} {w : List Byte} {n : Nat}

/-- The words that are ahead in the memory stream are left of the record, in at most `n` more fragments; then comes `w`,
with which the reader becomes `e`. -/
def Delivering (T : Transport ρ ω) (old : Nat → Byte) (e : ρ) (w : List Byte) (n : Nat) (X : Flexxdr FlexxdrMem)
    (Y : Flexxdr (RecStrm ρ ω)) : Prop :=
  ∃ c s cw lw, X = memStrm .decode c ∧ Y = recStrm T old .decode s ∧ Placed s ∧ Inlet.AtWord T e s.inlet cw lw w ∧
    lw.length ≤ n ∧ c.ahead = words (cw ++ lw.flatten)

theorem getlong_rec (T : Transport ρ ω) (old : Nat → Byte) (s : RecStrm ρ ω) :
    flexxdrGetlong (recStrm T old .decode s) =
      .ok ((flexxdrrecGetlong T s).1, recStrm T old .decode (flexxdrrecGetlong T s).2) := rfl

theorem delivering_parallel (hx : T.Exact) : Parallel .decode (Delivering T old e w n) where
  left := by
    rintro X Y ⟨c, s, cw, lw, rfl, -⟩
    rfl
  right := by
    rintro X Y ⟨c, s, cw, lw, -, rfl, -⟩
    rfl
  getlong := by
    rintro - X Y ⟨c, s, cw, lw, rfl, rfl, hs, hat, hn, ha⟩
    obtain ⟨v', cw', lw', hg, h', hl', ht, -⟩ := Inlet.getlong_at hx hat
    obtain ⟨hi, hs'⟩ := hs.getlong (T := T)
    rw [hg, Prod.mk.injEq] at hi
    rw [getlong_rec, ← hi.1]
    cases hw : cw ++ lw.flatten with
    | nil =>
      rw [hw] at ha ht
      have hr : c.room < 4 := by
        rw [Cursor.room, ha]
        exact Nat.succ_pos 3
      rw [getlong_short hr]
      exact .ok ⟨rfl, c, _, cw', lw', rfl, rfl, hs', hi.2 ▸ h', Nat.le_trans hl' hn, by rw [ha, ht]; rfl⟩
    | cons x ws =>
      rw [hw, words_cons] at ha
      rw [hw] at ht
      rw [getlong_word ha]
      refine .ok ⟨rfl, c.advance 4, _, cw', lw', rfl, rfl, hs', hi.2 ▸ h', Nat.le_trans hl' hn, ?_⟩
      rw [Cursor.ahead_advance, ha, drop_toBytes, ht, List.tail_cons]
  putlong := fun he => by cases he

end Words

end Cornflakes.Flexrpc

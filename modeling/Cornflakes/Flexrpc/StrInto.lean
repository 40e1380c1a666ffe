import Cornflakes.Flexrpc.Str

/-!
# What `flexxdr_string` does on every memory stream

- Decoding into a buffer that is there, as a function of the buffer and of the bytes ahead (`stringInto`,
  `string_into`): the bytes are kept from the buffer if the count is not allowed or announces more than is ahead, and
  nothing keeps them from running over its end;
- encoding, as a function of the string and of the room (`stringPart`, `string_part`): the count is written where it
  finds room, also when what follows it is not.
-/

set_option autoImplicit false

namespace Cornflakes.Flexrpc

open Wire

/-! ## Decoding into a buffer -/

/-- What decoding a string into the buffer `sp` makes of the bytes `bs` ahead: the result, the buffer, and the bytes to
go on with. It is `none` when bytes are stored past the end of the buffer. -/
def stringInto (maxsize : Word) (sp : List Byte) : List Byte → Option (Bool × List Byte × List Byte)
  | a :: b :: c :: d :: r =>
    let size := ofBytes a b c d
    if ¬ Passes size maxsize ∨ r.length < size.toNat then some (false, sp, r)
    else if sp.length < size.toNat then none
    else if r.length < rounded size.toNat then
      some (false, r.take size.toNat ++ sp.drop size.toNat, r.drop size.toNat)
    else some (true, r.take size.toNat ++ sp.drop size.toNat, r.drop (rounded size.toNat))
  | bs => some (false, sp, bs)

theorem stringInto_word (maxsize : Word) (sp : List Byte) (size : Word) (r : List Byte) :
    stringInto maxsize sp (toBytes size ++ r) =
      if ¬ Passes size maxsize ∨ r.length < size.toNat then some (false, sp, r)
      else if sp.length < size.toNat then none
      else if r.length < rounded size.toNat then
        some (false, r.take size.toNat ++ sp.drop size.toNat, r.drop size.toNat)
      else some (true, r.take size.toNat ++ sp.drop size.toNat, r.drop (rounded size.toNat)) := by
  show stringInto maxsize sp (_ :: _ :: _ :: _ :: r) = _
  rw [stringInto, show ofBytes _ _ _ _ = size from ofBytes_toBytes size]

theorem stringInto_short (maxsize : Word) (sp : List Byte) {bs : List Byte} (h : bs.length < 4) :
    stringInto maxsize sp bs = some (false, sp, bs) := by
  match bs with
  | [] | [_] | [_, _] | [_, _, _] => rfl
  | _ :: _ :: _ :: _ :: _ => exact absurd h (by simp only [List.length_cons]; omega)

/-- The bytes to go on with are the end of those that were ahead. -/
theorem stringInto_suffix {maxsize : Word} {sp sp' bs r : List Byte} {ok : Bool}
    (h : stringInto maxsize sp bs = some (ok, sp', r)) : r <:+ bs := by
  obtain hs | ⟨size, q, rfl⟩ := word_cases bs
  · rw [stringInto_short _ _ hs] at h
    cases h
    exact List.suffix_rfl
  · rw [stringInto_word] at h
    have hq : q <:+ toBytes size ++ q := List.suffix_append _ _
    split at h
    · cases h
      exact hq
    · split at h
      · cases h
      · split at h
        · cases h
          exact (List.drop_suffix _ _).trans hq
        · cases h
          exact (List.drop_suffix _ _).trans hq

/-- A decoded string leaves a buffer as long as it was. -/
theorem length_stringInto {maxsize : Word} {sp sp' bs r : List Byte} {ok : Bool}
    (h : stringInto maxsize sp bs = some (ok, sp', r)) : sp'.length = sp.length := by
  obtain hs | ⟨size, q, rfl⟩ := word_cases bs
  · rw [stringInto_short _ _ hs] at h
    cases h
    rfl
  · rw [stringInto_word] at h
    split at h
    · cases h
      rfl
    next hq =>
      rw [not_or, Nat.not_lt] at hq
      split at h
      · cases h
      next hsp =>
        have hl : (q.take size.toNat ++ sp.drop size.toNat).length = sp.length := by
          rw [List.length_append, List.length_take_of_le hq.2, List.length_drop]
          omega
        split at h
        · cases h
          exact hl
        · cases h
          exact hl

theorem le_rounded (n : Nat) : n ≤ rounded n := Nat.le_add_right _ _

/-- Stepping to the end `r` of the bytes ahead. -/
theorem ahead_advance_suffix {c : MemCursor} {r : List Byte} (h : r <:+ c.ahead) :
    (c.advance (c.room - r.length)).ahead = r := by
  obtain ⟨p, hp⟩ := h
  have hl : c.room - r.length = p.length := by
    rw [Cursor.room, ← hp, List.length_append, Nat.add_sub_cancel]
  rw [Cursor.ahead_advance, hl, ← hp, List.drop_left]

section Decode

variable {A : Allocator} {sp r : List Byte} {maxsize size cnt : Word} {c : MemCursor}

/-- Bytes that are there and do not fit into the buffer. -/
theorem opaque_overrun (hr : cnt.toNat ≤ c.room) (h : sp.length < cnt.toNat) :
    flexxdrOpaque (memStrm .decode c) sp cnt = .error .outOfBounds := by
  have h0 : cnt ≠ 0 := by
    rintro rfl
    exact absurd h (Nat.not_lt_zero _)
  have hl : (c.ahead.take cnt.toNat).length = cnt.toNat := List.length_take_of_le hr
  have hb : flexxdrGetbytes (memStrm .decode c) cnt = _ := getbytes_room hl (List.take_append_drop _ _).symm
  have hw : Block.write sp 0 (c.ahead.take cnt.toNat) = none := if_neg (by rw [hl]; omega)
  simp only [flexxdrOpaque, if_neg h0, memStrm_fOp, hb, hw, ok_bind]

/-- Bytes that are there, with or without their padding. -/
theorem opaque_into (hr : cnt.toNat ≤ c.room) (h : cnt.toNat ≤ sp.length) :
    flexxdrOpaque (memStrm .decode c) sp cnt = .ok (decide (rounded cnt.toNat ≤ c.room),
      c.ahead.take cnt.toNat ++ sp.drop cnt.toNat,
      memStrm .decode (c.advance (if rounded cnt.toNat ≤ c.room then rounded cnt.toNat else cnt.toNat))) := by
  have hl : (c.ahead.take cnt.toNat).length = cnt.toNat := List.length_take_of_le hr
  have hp : (rndup cnt).toNat = (4 - cnt.toNat % 4) % 4 := toNat_rndup cnt
  rw [opaque_read hl h (List.take_append_drop _ _).symm]
  by_cases hz : rounded cnt.toNat ≤ c.room
  · have hk : (rndup cnt).toNat ≤ (c.advance cnt.toNat).ahead.length := by
      show _ ≤ (c.advance cnt.toNat).room
      unfold rounded at hz
      rw [Cursor.room_advance]
      omega
    have hg : flexxdrGetbytes (memStrm .decode (c.advance cnt.toNat)) (rndup cnt) = _ :=
      getbytes_room (List.length_take_of_le hk) (List.take_append_drop _ _).symm
    rw [hg, ok_bind, if_pos hz, decide_eq_true hz, Cursor.advance_advance, hp]
    rfl
  · have hk : (c.advance cnt.toNat).room < (rndup cnt).toNat := by
      unfold rounded at hz
      rw [Cursor.room_advance]
      omega
    rw [getbytes_short hk, ok_bind, if_neg hz, decide_eq_false hz]

/-- **Decoding into a buffer that is there.** -/
theorem string_into (A : Allocator) (maxsize : Word) (sp : List Byte) (c : MemCursor) :
    flexxdrString A (memStrm .decode c) (some sp) maxsize =
      match stringInto maxsize sp c.ahead with
      | none => .error .outOfBounds
      | some (ok, sp', r) => .ok (ok, some sp', memStrm .decode (c.advance (c.room - r.length))) := by
  obtain hs | ⟨size, r, h⟩ := word_cases c.ahead
  · have hu := uInt_short (0 : Word) (show c.room < 4 from hs)
    rw [stringInto_short _ _ hs]
    unfold flexxdrString stringSize
    simp only [memStrm_fOp, hu, ok_bind, Bool.not_false, if_true, pure_eq_ok, Cursor.room, Nat.sub_self,
      Cursor.advance_zero]
  · have hroom : c.room = 4 + r.length := by rw [Cursor.room, h, List.length_append, length_toBytes]
    have ha : (c.advance 4).ahead = r := by rw [Cursor.ahead_advance, h, drop_toBytes]
    have hr : (c.advance 4).room = r.length := by rw [Cursor.room, ha]
    rw [string_decode A (some sp) maxsize h, h, stringInto_word]
    by_cases hp : Passes size maxsize
    · rw [if_pos hp]
      simp only [Option.some_or]
      by_cases hlt : r.length < size.toNat
      · rw [opaque_unread (by rw [hr]; exact hlt), onField_ok, if_pos (Or.inr hlt)]
        simp only [hroom, Nat.add_sub_cancel]
      · rw [if_neg (not_or.mpr ⟨not_not.mpr hp, hlt⟩)]
        by_cases hb : sp.length < size.toNat
        · rw [opaque_overrun (by rw [hr]; omega) hb, if_pos hb]
          rfl
        · have hle := le_rounded size.toNat
          rw [opaque_into (by rw [hr]; omega) (by omega), onField_ok, if_neg hb, hr, ha]
          by_cases hz : r.length < rounded size.toNat
          · rw [if_pos hz, if_neg (by omega), decide_eq_false (by omega)]
            simp only [hroom, List.length_drop, Cursor.advance_advance]
            rw [show 4 + r.length - (r.length - size.toNat) = 4 + size.toNat by omega]
          · rw [if_neg hz, if_pos (by omega), decide_eq_true (by omega)]
            simp only [hroom, List.length_drop, Cursor.advance_advance]
            rw [show 4 + r.length - (r.length - rounded size.toNat) = 4 + rounded size.toNat by omega]
    · rw [if_neg hp, if_pos (Or.inl hp)]
      simp only [hroom, Nat.add_sub_cancel]

end Decode

/-! ## Encoding into the room that is left -/

/-- What encoding the string `s` writes into `room` bytes, with its result. -/
def stringPart (maxsize : Word) (s : List Byte) (room : Nat) : Bool × List Byte :=
  let size := narrowed s.length
  if room < 4 then (false, [])
  else if ¬ Passes size maxsize ∨ room < 4 + size.toNat then (false, toBytes size)
  else if room < 4 + rounded size.toNat then (false, toBytes size ++ s.take size.toNat)
  else (true, toBytes size ++ padded (s.take size.toNat))

theorem length_stringPart_le (maxsize : Word) (s : List Byte) (room : Nat) :
    (stringPart maxsize s room).2.length ≤ room := by
  have hk : (s.take (narrowed s.length).toNat).length = (narrowed s.length).toNat :=
    List.length_take_of_le (narrowed_le _)
  unfold stringPart
  simp only
  split
  · exact Nat.zero_le _
  · split
    · rw [length_toBytes]
      omega
    · split
      · rw [List.length_append, length_toBytes, hk]
        omega
      · rw [List.length_append, length_toBytes, length_padded_eq hk]
        omega

section Encode

variable {s r : List Byte} {cp : List Byte} {cnt : Word} {c : MemCursor}

/-- Bytes that fit without their padding. -/
theorem opaque_unpadded (h : cnt.toNat ≤ cp.length) (hr : cnt.toNat ≤ c.room) (hz : c.room < rounded cnt.toNat) :
    flexxdrOpaque (memStrm .encode c) cp cnt = .ok (false, cp, memStrm .encode (c.write (cp.take cnt.toNat))) := by
  have hl : (cp.take cnt.toNat).length = cnt.toNat := List.length_take_of_le h
  have hp : (rndup cnt).toNat = (4 - cnt.toNat % 4) % 4 := toNat_rndup cnt
  unfold rounded at hz
  have hb : flexxdrPutbytes (memStrm .encode (c.write (cp.take cnt.toNat))) flexxdrZero (rndup cnt) = _ :=
    putbytes_full flexxdrZero (by rw [Cursor.room_write, hl]; omega)
  rw [opaque_sent h hr, hb, ok_bind]

/-- **Encoding into the room that is left.** -/
theorem string_part (A : Allocator) (maxsize : Word) (h : 0 ∉ s) (r : List Byte) (c : MemCursor) :
    flexxdrString A (memStrm .encode c) (some (s ++ 0 :: r)) maxsize =
      .ok ((stringPart maxsize s c.room).1, some (s ++ 0 :: r),
        memStrm .encode (c.write (stringPart maxsize s c.room).2)) := by
  have hk : (narrowed s.length).toNat ≤ (s ++ 0 :: r).length := by
    have := narrowed_le s.length
    rw [List.length_append]
    omega
  unfold stringPart
  simp only
  by_cases hr : c.room < 4
  · have hu := uInt_full (narrowed s.length) hr
    rw [if_pos hr, Cursor.write_nil]
    unfold flexxdrString stringSize
    simp only [memStrm_fOp, strlen_eq h, ok_bind, pure_eq_ok]
    rw [show (BitVec.ofNat 32 s.length : Word) = narrowed s.length from rfl, hu]
    rfl
  · have hw : (c.write (toBytes (narrowed s.length))).room = c.room - 4 := Cursor.room_write _ _
    rw [if_neg hr, string_encode h (by omega)]
    by_cases hp : Passes (narrowed s.length) maxsize
    · rw [if_pos hp]
      by_cases hb : c.room < 4 + (narrowed s.length).toNat
      · rw [if_pos (Or.inr hb), opaque_unsent _ (by rw [hw]; omega), onField_ok]
      · rw [if_neg (not_or.mpr ⟨not_not.mpr hp, hb⟩)]
        by_cases hz : c.room < 4 + rounded (narrowed s.length).toNat
        · rw [if_pos hz, opaque_unpadded hk (by rw [hw]; omega) (by rw [hw]; omega), onField_ok, take_narrowed,
            Cursor.write_write]
        · have ho := opaque_puts hk (c.write (toBytes (narrowed s.length))) (by
            rw [take_narrowed, length_padded_eq (List.length_take_of_le (narrowed_le _)), hw]
            omega)
          simp only at ho
          rw [if_neg hz, ho, onField_ok, take_narrowed, Cursor.write_write]
    · rw [if_neg hp, if_pos (Or.inl hp)]

end Encode

end Cornflakes.Flexrpc

import Cornflakes.Flexrpc.Parallel

/-!
# Two memory streams

What is decoded depends on the bytes ahead only: on two handles with the same bytes ahead the operations do the same and
step over as many bytes in each (`reading_parallel`), and so does the block of `flexxdr_callmsg` (`callmsg_reading`).
What is encoded depends on the room only: into two buffers with the same room the same bytes are put
(`writing_parallel`).
-/

set_option autoImplicit false

namespace Cornflakes.Flexrpc

open Wire

variable {α β : Type} {c d : MemCursor}

/-- Two handles that decode, as many bytes after `c` and after `d`. -/
def Reading (c d : MemCursor) (X Y : Flexxdr FlexxdrMem) : Prop :=
  ∃ n, n ≤ c.room ∧ X = memStrm .decode (c.advance n) ∧ Y = memStrm .decode (d.advance n)

/-- Two handles that encode, after the same bytes from `c` and from `d` on. -/
def Writing (c d : MemCursor) (X Y : Flexxdr FlexxdrMem) : Prop :=
  ∃ bs : List Byte, bs.length ≤ c.room ∧ X = memStrm .encode (c.write bs) ∧ Y = memStrm .encode (d.write bs)

theorem reading_start : Reading c d (memStrm .decode c) (memStrm .decode d) :=
  ⟨0, Nat.zero_le _, by rw [Cursor.advance_zero], by rw [Cursor.advance_zero]⟩

theorem writing_start : Writing c d (memStrm .encode c) (memStrm .encode d) :=
  ⟨[], Nat.zero_le _, by rw [Cursor.write_nil], by rw [Cursor.write_nil]⟩

/-- Going on from a later place. -/
theorem Reading.trans {n : Nat} (hn : n ≤ c.room) {X Y : Flexxdr FlexxdrMem}
    (h : Reading (c.advance n) (d.advance n) X Y) : Reading c d X Y := by
  obtain ⟨k, hk, rfl, rfl⟩ := h
  rw [Cursor.room_advance] at hk
  exact ⟨n + k, by omega, by rw [Cursor.advance_advance], by rw [Cursor.advance_advance]⟩

theorem Writing.trans {bs : List Byte} (hb : bs.length ≤ c.room) {X Y : Flexxdr FlexxdrMem}
    (h : Writing (c.write bs) (d.write bs) X Y) : Writing c d X Y := by
  obtain ⟨cs, hcs, rfl, rfl⟩ := h
  rw [Cursor.room_write] at hcs
  exact ⟨bs ++ cs, by rw [List.length_append]; omega, by rw [Cursor.write_write], by rw [Cursor.write_write]⟩

/-! ## Decoding -/

section Decode

theorem room_eq (h : c.ahead = d.ahead) : c.room = d.room := congrArg List.length h

theorem getlong_reading (h : c.ahead = d.ahead) :
    Alike (fun p q => p.1 = q.1 ∧ Reading c d p.2 q.2) (flexxdrGetlong (memStrm .decode c))
      (flexxdrGetlong (memStrm .decode d)) := by
  obtain hs | ⟨w, r, hw⟩ := word_cases c.ahead
  · rw [getlong_short hs, getlong_short (show d.room < 4 by rw [← room_eq h]; exact hs)]
    exact .ok ⟨rfl, reading_start⟩
  · rw [getlong_word hw, getlong_word (h.symm.trans hw)]
    exact .ok ⟨rfl, 4, room_word hw, rfl, rfl⟩

theorem getbytes_reading (h : c.ahead = d.ahead) (len : BitVec 32) :
    Alike (fun p q => p.1 = q.1 ∧ p.2.1 = q.2.1 ∧ Reading c d p.2.2 q.2.2) (flexxdrGetbytes (memStrm .decode c) len)
      (flexxdrGetbytes (memStrm .decode d) len) := by
  by_cases hs : c.room < len.toNat
  · rw [getbytes_short hs, getbytes_short (by rw [← room_eq h]; exact hs)]
    exact .ok ⟨rfl, rfl, reading_start⟩
  · have hl : (c.ahead.take len.toNat).length = len.toNat := List.length_take_of_le (Nat.le_of_not_lt hs)
    have hc := (List.take_append_drop len.toNat c.ahead).symm
    rw [getbytes_room hl hc, getbytes_room hl (h.symm.trans hc)]
    exact .ok ⟨rfl, rfl, len.toNat, Nat.le_of_not_lt hs, rfl, rfl⟩

theorem ahead_advance_eq (h : c.ahead = d.ahead) (n : Nat) : (c.advance n).ahead = (d.advance n).ahead := by
  rw [Cursor.ahead_advance, Cursor.ahead_advance, h]

theorem reading_parallel (h : c.ahead = d.ahead) : ParallelBytes .decode (Reading c d) where
  left := by
    rintro X Y ⟨n, -, rfl, -⟩
    rfl
  right := by
    rintro X Y ⟨n, -, -, rfl⟩
    rfl
  getlong := by
    rintro - X Y ⟨n, hn, rfl, rfl⟩
    exact (getlong_reading (ahead_advance_eq h n)).weaken fun p q hpq => ⟨hpq.1, hpq.2.trans hn⟩
  putlong := fun he => by cases he
  getbytes := by
    rintro - X Y ⟨n, hn, rfl, rfl⟩ len
    exact (getbytes_reading (ahead_advance_eq h n) len).weaken fun p q hpq => ⟨hpq.1, hpq.2.1, hpq.2.2.trans hn⟩
  putbytes := fun he => by cases he

variable {R : Flexxdr FlexxdrMem → Flexxdr FlexxdrMem → Prop} {T : α → β → Prop}

/-- A header that is refused is left at the same place, with the same fields. -/
theorem callmsgLeft_alike (h : c.ahead = d.ahead) {m : RpcMsg FlexxdrMem α} {m' : RpcMsg FlexxdrMem β}
    (hm : SameMsg R T m m') : ∃ n, n ≤ c.room ∧ (callmsgLeft c m).1 = c.advance n ∧
      (callmsgLeft d m').1 = d.advance n ∧ SameMsg R T (callmsgLeft c m).2 (callmsgLeft d m').2 := by
  obtain ⟨r, -, hw⟩ := words_wordsOf c.ahead
  have hroom : c.room = 4 * (wordsOf c.ahead).length + r.length := by
    unfold Cursor.room
    conv_lhs => rw [hw, List.length_append, length_words]
  unfold callmsgLeft
  rw [← h]
  generalize wordsOf c.ahead = ws at hroom
  match ws with
  | [] => exact ⟨0, Nat.zero_le _, c.advance_zero.symm, d.advance_zero.symm, hm⟩
  | [xid] => exact ⟨4, by simp at hroom; omega, rfl, rfl, hm.setRmXid _⟩
  | [xid, e] => exact ⟨8, by simp at hroom; omega, rfl, rfl, (hm.setRmXid _).setRmDirection _⟩
  | [xid, e, v] =>
    dsimp only
    split
    · exact ⟨12, by simp at hroom; omega, rfl, rfl, ((hm.setRmXid _).setRmDirection _).setCbRpcvers _⟩
    · exact ⟨8, by simp at hroom; omega, rfl, rfl, (hm.setRmXid _).setRmDirection _⟩
  | v :: _ :: _ :: _ :: ws => exact ⟨16, by simp at hroom; omega, rfl, rfl, hm.setCbRpcvers _⟩

theorem callmsg_reading (h : c.ahead = d.ahead) {m : RpcMsg FlexxdrMem α} {m' : RpcMsg FlexxdrMem β}
    (hm : SameMsg R T m m') :
    Alike (Outcomes (SameMsg R T) (Reading c d)) (flexxdrCallmsg (memStrm .decode c) m)
      (flexxdrCallmsg (memStrm .decode d) m') := by
  by_cases hg : GoodCall c.ahead
  · obtain ⟨prog, vers, proc, r, ha⟩ := hg
    have hr : 16 ≤ c.room := by
      rw [Cursor.room, ha, List.length_append, length_words]
      exact Nat.le_add_right _ _
    rw [callmsg_accepts m ha, callmsg_accepts m' (h.symm.trans ha)]
    exact .outcome (hm.setCall prog vers proc) ⟨16, hr, rfl, rfl⟩
  · obtain ⟨n, hn, hc, hd, hl⟩ := callmsgLeft_alike h hm
    rw [callmsg_refuses m hg, callmsg_refuses m' (by rw [← h]; exact hg), hc, hd]
    exact .outcome hl ⟨n, hn, rfl, rfl⟩

end Decode

/-! ## Encoding -/

section Encode

theorem putlong_writing (h : c.room = d.room) (lp : ULong) :
    Alike (fun p q => p.1 = q.1 ∧ Writing c d p.2 q.2) (flexxdrPutlong (memStrm .encode c) lp)
      (flexxdrPutlong (memStrm .encode d) lp) := by
  by_cases hr : 4 ≤ c.room
  · rw [putlong_room lp hr, putlong_room lp (by rw [← h]; exact hr)]
    exact .ok ⟨rfl, toBytes (lp.setWidth 32), hr, rfl, rfl⟩
  · rw [putlong_full lp (by omega), putlong_full lp (by omega)]
    exact .ok ⟨rfl, writing_start⟩

theorem putbytes_writing (h : c.room = d.room) (addr : List Byte) (len : BitVec 32) :
    Alike (fun p q => p.1 = q.1 ∧ Writing c d p.2 q.2) (flexxdrPutbytes (memStrm .encode c) addr len)
      (flexxdrPutbytes (memStrm .encode d) addr len) := by
  by_cases hr : len.toNat ≤ c.room
  · have hr' : len.toNat ≤ d.room := by
      rw [← h]
      exact hr
    by_cases hl : len.toNat ≤ addr.length
    · rw [putbytes_room hl hr, putbytes_room hl hr']
      exact .ok ⟨rfl, addr.take len.toNat, by rw [List.length_take_of_le hl]; exact hr, rfl, rfl⟩
    · rw [putbytes_over (Nat.not_le.mp hl) hr, putbytes_over (Nat.not_le.mp hl) hr']
      exact .error _
  · rw [putbytes_full addr (by omega), putbytes_full addr (by omega)]
    exact .ok ⟨rfl, writing_start⟩

theorem room_write_eq (h : c.room = d.room) (bs : List Byte) : (c.write bs).room = (d.write bs).room := by
  rw [Cursor.room_write, Cursor.room_write, h]

theorem writing_parallel (h : c.room = d.room) : ParallelBytes .encode (Writing c d) where
  left := by
    rintro X Y ⟨bs, -, rfl, -⟩
    rfl
  right := by
    rintro X Y ⟨bs, -, -, rfl⟩
    rfl
  getlong := fun he => by cases he
  putlong := by
    rintro - X Y ⟨bs, hb, rfl, rfl⟩ lp
    exact (putlong_writing (room_write_eq h bs) lp).weaken fun p q hpq => ⟨hpq.1, hpq.2.trans hb⟩
  getbytes := fun he => by cases he
  putbytes := by
    rintro - X Y ⟨bs, hb, rfl, rfl⟩ addr len
    exact (putbytes_writing (room_write_eq h bs) addr len).weaken fun p q hpq => ⟨hpq.1, hpq.2.trans hb⟩

end Encode

end Cornflakes.Flexrpc

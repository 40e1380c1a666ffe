import Cornflakes.Flexrpc.Str

/-!
# Lengths from the peer

Whatever a memory stream holds, decoding counted bytes or a string stores nothing when the length word is above the
limit, and else nothing or all the bytes that it announces, in a block that was allocated for so many, and all of them
when the result is TRUE (`counted_contained`).
What the code cannot know is how long a buffer of the caller is: the only fault is a length within the limit that is
too large for it.
-/

set_option autoImplicit false

namespace Cornflakes.Flexrpc

open Wire

/-- The next word at `c` is the length `w`. -/
def Announces (c : MemCursor) (w : Word) : Prop := ∃ r, c.ahead = toBytes w ++ r

/-- The bytes that come next at `c` are `bs`, as many as `cnt` says. -/
def Comes (c : MemCursor) (cnt : Word) (bs : List Byte) : Prop := bs.length = cnt.toNat ∧ bs <+: c.ahead

/-- The next word at `c` is the length `w`, and the bytes behind it that it announces are `bs`. -/
def Brings (c : MemCursor) (w : Word) (bs : List Byte) : Prop := Announces c w ∧ Comes (c.advance 4) w bs

/-- The bytes `bs` are stored at `*cpp`, which is then `cpp'`: nowhere, at the front of the caller's buffer, or at the front
of a new block, whose size leaves `extra` bytes. -/
inductive Stores (A : Allocator) (extra : Nat) (bs : List Byte) : Option (List Byte) → Option (List Byte) → Prop
  | nowhere {cpp : Option (List Byte)} (nothing : bs = []) : Stores A extra bs cpp cpp
  | caller {sp : List Byte} (fits : bs.length ≤ sp.length) : Stores A extra bs (some sp) (some (bs ++ sp.drop bs.length))
  | block {n : Word} {sp : List Byte} (allocated : A.memAlloc n = some sp) (fits : bs.length + extra ≤ n.toNat) :
      Stores A extra bs none (some (bs ++ sp.drop bs.length))

/-- The destination is not overrun: what is stored, that all of it is and how far the stream is when the result is TRUE,
and the fault of a buffer that is too short. -/
structure Contained (A : Allocator) (extra : Nat) (maxsize : Word) (c : MemCursor) (cpp : Option (List Byte))
    (r : Except Fault (Outcome FlexxdrMem (Option (List Byte)))) : Prop where
  stored : ∀ ok cpp' X, r = .ok (ok, cpp', X) →
    ∃ bs, Stores A extra bs cpp cpp' ∧ (bs = [] ∨ ∃ w, w ≤ maxsize ∧ Brings c w bs)
  advanced : ∀ cpp' X, r = .ok (true, cpp', X) →
    ∃ w bs, Brings c w bs ∧ Stores A extra bs cpp cpp' ∧ 4 + rounded w.toNat ≤ c.room ∧
      X = memStrm .decode (c.advance (4 + rounded w.toNat))
  faults : ∀ f, r = .error f →
    f = .outOfBounds ∧ ∃ sp w, cpp = some sp ∧ Announces c w ∧ w ≤ maxsize ∧ sp.length < w.toNat ∧ 4 + w.toNat ≤ c.room

/-! ## The bytes -/

/-- Opaque bytes are stored in full or not at all. -/
theorem opaque_stores (sp : List Byte) (cnt : Word) (c : MemCursor) :
    (flexxdrOpaque (memStrm .decode c) sp cnt = .error .outOfBounds ∧ sp.length < cnt.toNat ∧ cnt.toNat ≤ c.room) ∨
    ∃ ok bs X, flexxdrOpaque (memStrm .decode c) sp cnt = .ok (ok, bs ++ sp.drop bs.length, X) ∧
      bs.length ≤ sp.length ∧ (bs = [] ∨ Comes c cnt bs) ∧
      (ok = true → Comes c cnt bs ∧ rounded cnt.toNat ≤ c.room ∧
        X = memStrm .decode (c.advance (rounded cnt.toNat))) := by
  by_cases hr : c.room < cnt.toNat
  · exact Or.inr ⟨false, [], memStrm .decode c, opaque_unread hr, Nat.zero_le _, Or.inl rfl, fun h => by cases h⟩
  have hl : (c.ahead.take cnt.toNat).length = cnt.toNat := List.length_take_of_le (Nat.le_of_not_lt hr)
  have hc : c.ahead = c.ahead.take cnt.toNat ++ c.ahead.drop cnt.toNat := (List.take_append_drop _ _).symm
  have hcome : Comes c cnt (c.ahead.take cnt.toNat) := ⟨hl, List.take_prefix _ _⟩
  by_cases hs : sp.length < cnt.toNat
  · have h0 : cnt ≠ 0 := by
      rintro rfl
      exact absurd hs (Nat.not_lt_zero _)
    have hb : flexxdrGetbytes (memStrm .decode c) cnt = _ := getbytes_room hl hc
    have hw : Block.write sp 0 (c.ahead.take cnt.toNat) = none := by
      unfold Block.write
      exact if_neg (by omega)
    refine Or.inl ⟨?_, hs, by omega⟩
    simp only [flexxdrOpaque, if_neg h0, memStrm_fOp, hb, hw, ok_bind]
  · have hd := opaque_read hl (Nat.le_of_not_lt hs) hc
    have hp : (rndup cnt).toNat = (4 - cnt.toNat % 4) % 4 := toNat_rndup cnt
    refine Or.inr ?_
    by_cases hrm : (c.advance cnt.toNat).room < (rndup cnt).toNat
    · refine ⟨false, c.ahead.take cnt.toNat, memStrm .decode (c.advance cnt.toNat), ?_, by omega, Or.inr hcome,
        fun h => by cases h⟩
      rw [hd, getbytes_short hrm, hl]
      rfl
    · have hg : flexxdrGetbytes (memStrm .decode (c.advance cnt.toNat)) (rndup cnt) = _ :=
        getbytes_room (List.length_take_of_le (Nat.le_of_not_lt hrm)) (List.take_append_drop _ _).symm
      refine ⟨true, c.ahead.take cnt.toNat, memStrm .decode (c.advance (rounded cnt.toNat)), ?_, by omega,
        Or.inr hcome, fun _ => ⟨hcome, ?_, rfl⟩⟩
      · rw [hd, hg, hl, c.advance_advance, rounded, hp]
        rfl
      · rw [Cursor.room_advance] at hrm
        unfold rounded
        omega

/-! ## The destination -/

section Destination

variable {A : Allocator} {extra : Nat} {maxsize w : Word} {c : MemCursor} {cpp : Option (List Byte)}

/-- A codec that returns FALSE and stores nothing. -/
theorem Contained.refused (X : Flexxdr FlexxdrMem) : Contained A extra maxsize c cpp (.ok (false, cpp, X)) where
  stored := by
    intro ok cpp' Y h
    cases h
    exact ⟨[], .nowhere rfl, Or.inl rfl⟩
  advanced := by
    intro cpp' Y h
    cases h
  faults := by
    intro f h
    cases h

/-- Decoding the bytes into a buffer that was found or allocated for the announced length. -/
theorem Contained.into {sp : List Byte} {n : Word} (ha : Announces c w) (hm : w ≤ maxsize)
    (hn : w.toNat + extra ≤ n.toNat) (ht : cpp.or (A.memAlloc n) = some sp) :
    Contained A extra maxsize c cpp (onField (flexxdrOpaque (memStrm .decode (c.advance 4)) sp w) some) := by
  obtain ⟨r, hc⟩ := ha
  have hr4 : 4 ≤ c.room := room_word hc
  have hsp {bs : List Byte} (hl : bs.length ≤ sp.length) (hb : bs = [] ∨ Comes (c.advance 4) w bs) :
      Stores A extra bs cpp (some (bs ++ sp.drop bs.length)) := by
    cases cpp with
    | none =>
      rw [Option.none_or] at ht
      refine .block ht ?_
      rcases hb with rfl | hb
      · rw [List.length_nil]
        omega
      · rw [hb.1]
        exact hn
    | some b =>
      rw [Option.some_or] at ht
      cases ht
      exact .caller hl
  rcases opaque_stores sp w (c.advance 4) with ⟨he, hlt, hroom⟩ | ⟨ok, bs, X, he, hl, hb, hX⟩
  · rw [he]
    refine ⟨fun _ _ _ h => (by cases h), fun _ _ h => (by cases h), ?_⟩
    intro f h
    cases h
    rw [Cursor.room_advance] at hroom
    cases cpp with
    | none =>
      -- A new block is never too short.
      rw [Option.none_or] at ht
      have hlen := A.length_memAlloc n sp ht
      omega
    | some b =>
      rw [Option.some_or] at ht
      cases ht
      exact ⟨rfl, sp, w, rfl, ⟨r, hc⟩, hm, hlt, by omega⟩
  · rw [he, onField_ok]
    refine ⟨?_, ?_, fun _ h => by cases h⟩
    · intro ok' cpp' Y h
      cases h
      exact ⟨bs, hsp hl hb, hb.imp_right fun hb => ⟨w, hm, ⟨r, hc⟩, hb⟩⟩
    · intro cpp' Y h
      cases h
      obtain ⟨hcome, hroom, hY⟩ := hX rfl
      rw [Cursor.room_advance] at hroom
      exact ⟨w, bs, ⟨⟨r, hc⟩, hcome⟩, hsp hl hb, by omega, by rw [hY, c.advance_advance]⟩

/-- Nothing to decode. -/
theorem Contained.empty (hc : Announces c 0) :
    Contained A extra maxsize c cpp (.ok (true, cpp, memStrm .decode (c.advance 4))) where
  stored := by
    intro ok cpp' Y h
    cases h
    exact ⟨[], .nowhere rfl, Or.inl rfl⟩
  advanced := by
    intro cpp' Y h
    cases h
    obtain ⟨r, hr⟩ := hc
    exact ⟨0, [], ⟨⟨r, hr⟩, rfl, List.nil_prefix⟩, .nowhere rfl, room_word hr, rfl⟩
  faults := by
    intro f h
    cases h

/-- `flexxdr_bytes`, but for the count. -/
theorem bytes_contained (A : Allocator) (c : MemCursor) (cpp : Option (List Byte)) (sizep maxsize : Word) :
    Contained A 0 maxsize c cpp (onField (flexxdrBytes A (memStrm .decode c) cpp sizep maxsize) Prod.fst) := by
  rcases word_cases c.ahead with hs | ⟨w, r, hc⟩
  · simp only [flexxdrBytes, uInt_short sizep hs, ok_bind, Bool.not_false, if_true, pure_eq_ok, onField_ok]
    exact Contained.refused _
  by_cases hm : w ≤ maxsize
  · rw [bytes_decode cpp sizep hm hc]
    by_cases h0 : w = 0
    · subst h0
      rw [if_pos rfl, onField_ok]
      exact Contained.empty ⟨r, hc⟩
    · rw [if_neg h0]
      rcases ht : cpp.or (A.memAlloc w) with _ | sp
      · obtain ⟨rfl, -⟩ := Option.or_eq_none_iff.mp ht
        exact Contained.refused _
      · rw [onField_onField]
        exact Contained.into ⟨r, hc⟩ hm (Nat.le_refl _) ht
  · have hu := uInt_takes sizep w c r hc
    have hg : w > maxsize ∧ FlexxdrOp.decode ≠ .free := ⟨BitVec.not_le.mp hm, by decide⟩
    simp only [length_toBytes] at hu
    simp only [flexxdrBytes, hu, ok_bind, Bool.not_true, Bool.false_eq_true, if_false, memStrm_fOp, if_pos hg,
      pure_eq_ok, onField_ok]
    exact Contained.refused _

theorem string_contained (A : Allocator) (c : MemCursor) (cpp : Option (List Byte)) (maxsize : Word) :
    Contained A 1 maxsize c cpp (flexxdrString A (memStrm .decode c) cpp maxsize) := by
  rcases word_cases c.ahead with hs | ⟨w, r, hc⟩
  · have hf : flexxdrString A (memStrm .decode c) cpp maxsize = .ok (false, cpp, memStrm .decode c) := by
      unfold flexxdrString stringSize
      simp only [memStrm_fOp, uInt_short 0 hs, ok_bind, Bool.not_false, if_true, pure_eq_ok]
    rw [hf]
    exact Contained.refused _
  rw [string_decode A cpp maxsize hc]
  by_cases hp : Passes w maxsize
  · -- The size of a new block does not wrap.
    have hn : w.toNat + 1 ≤ (w + 1).toNat := by
      have hw := w.isLt
      have h1 : (w + 1).toNat ≠ 0 := fun h => hp.2 (BitVec.eq_of_toNat_eq h)
      rw [BitVec.toNat_add, show (1 : Word).toNat = 1 from rfl] at h1 ⊢
      omega
    rw [if_pos hp]
    rcases ht : cpp.or (A.memAlloc (w + 1)) with _ | sp
    · obtain ⟨rfl, -⟩ := Option.or_eq_none_iff.mp ht
      exact Contained.refused _
    · exact Contained.into ⟨r, hc⟩ hp.1 hn ht
  · rw [if_neg hp]
    exact Contained.refused _

end Destination

/-- **A length word from the peer does not overrun the destination.** -/
theorem counted_contained (A : Allocator) (c : MemCursor) (cpp : Option (List Byte)) (sizep maxsize : Word) :
    Contained A 0 maxsize c cpp (onField (flexxdrBytes A (memStrm .decode c) cpp sizep maxsize) Prod.fst) ∧
    Contained A 1 maxsize c cpp (flexxdrString A (memStrm .decode c) cpp maxsize) :=
  ⟨bytes_contained A c cpp sizep maxsize, string_contained A c cpp maxsize⟩

end Cornflakes.Flexrpc

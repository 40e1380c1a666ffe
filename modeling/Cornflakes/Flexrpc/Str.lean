import Cornflakes.Flexrpc.Items

/-!
# C strings (`flexxdr_string`)

In memory a string ends with a NUL; on the wire it has a count, and the NUL is not sent.

- Encoding sends the low 32 bits of the length and that many bytes (`string_puts`, `string_true_iff`);
- decoding stores as many bytes as are announced into the caller's buffer or a new one, and no NUL after them
  (`string_decode`, `string_takes`);
- so a string comes back exactly where the NUL was there before (`string_roundTrip_iff`).
-/

set_option autoImplicit false

namespace Cornflakes.Flexrpc

open Wire

variable {σ : Type}

/-! ## Strings in memory -/

/-- `strlen`: the bytes before the first NUL of a buffer. -/
def strlen : List Byte → Except Fault Nat
  | [] => .error .unterminated
  | b :: bs => if b = 0 then .ok 0 else do return (← strlen bs) + 1

/-- The buffer holds the string `s`. -/
def HoldsString (buf s : List Byte) : Prop := 0 ∉ s ∧ ∃ r, buf = s ++ 0 :: r

theorem strlen_eq {s : List Byte} (h : 0 ∉ s) (r : List Byte) : strlen (s ++ 0 :: r) = .ok s.length := by
  induction s with
  | nil => rfl
  | cons b s ih =>
    rw [List.mem_cons, not_or] at h
    have hb : b ≠ 0 := fun e => h.1 e.symm
    rw [List.cons_append, strlen, if_neg hb, ih h.2]
    rfl

/-! ## The codec -/

/-- The first `switch` of `flexxdr_string`: the result where it returns, and else `size`. -/
def stringSize (op : FlexxdrOp) (cpp : Option (List Byte)) : Except Fault (Bool ⊕ Word) :=
  match op, cpp with
  | .free, none => .ok (.inl true)
  | .encode, none => .ok (.inl false)
  | .free, some sp | .encode, some sp => do return .inr (.ofNat 32 (← strlen sp))
  | .decode, _ => .ok (.inr 0)

/-- `cpp` is NULL or what the buffer at `*cpp` holds. -/
def flexxdrString (A : Allocator) (X : Flexxdr σ) (cpp : Option (List Byte)) (maxsize : Word) :
    Except Fault (Outcome σ (Option (List Byte))) := do
  match ← stringSize X.fOp cpp with
  | .inl ret => return (ret, cpp, X)
  | .inr size =>
    let (ok, size, X) ← flexxdrUInt X size
    if !ok then return (false, cpp, X)
    else if size > maxsize then return (false, cpp, X)
    else if size + 1 = 0 then return (false, cpp, X)
    else
      match X.fOp with
      | .decode =>
        match cpp.or (A.memAlloc (size + 1)) with
        | none => return (false, none, X)
        | some sp => onField (flexxdrOpaque X sp size) some
      | .encode => onField (flexxdrOpaque X (cpp.getD []) size) fun _ => cpp
      | .free => return (true, cpp, X)

/-! ## Encoding -/

/-- The bytes that `n` bytes take up on the wire. -/
def rounded (n : Nat) : Nat := n + (4 - n % 4) % 4

theorem length_padded_eq {n : Nat} {bs : List Byte} (h : bs.length = n) : (padded bs).length = rounded n := by
  rw [length_padded, h, rounded]

/-- Without room for the bytes and their padding nothing is encoded with TRUE. -/
theorem opaque_full {cp : List Byte} {cnt : Word} {c : MemCursor} (h : cnt.toNat ≤ cp.length)
    (hr : c.room < rounded cnt.toNat) : Returns (flexxdrOpaque (memStrm .encode c) cp cnt) false := by
  by_cases hc : c.room < cnt.toNat
  · exact ⟨cp, memStrm .encode c, opaque_unsent cp hc⟩
  · -- The bytes fit, and their padding does not.
    have hl : (cp.take cnt.toNat).length = cnt.toNat := List.length_take_of_le h
    have hp : (rndup cnt).toNat = (4 - cnt.toNat % 4) % 4 := toNat_rndup cnt
    unfold rounded at hr
    have hz : flexxdrPutbytes (memStrm .encode (c.write (cp.take cnt.toNat))) flexxdrZero (rndup cnt) = _ :=
      putbytes_full flexxdrZero (by rw [Cursor.room_write, hl]; omega)
    refine ⟨cp, memStrm .encode (c.write (cp.take cnt.toNat)), ?_⟩
    rw [opaque_sent h (Nat.le_of_not_lt hc), hz, ok_bind]

section Encode

variable {A : Allocator} {s r : List Byte} {maxsize : Word} {c : MemCursor}

/-- What is left of a length in `size`. -/
def narrowed (n : Nat) : Word := .ofNat 32 n

/-- A length that `flexxdr_string` goes on with. -/
def Passes (size maxsize : Word) : Prop := size ≤ maxsize ∧ size + 1 ≠ 0

instance (size maxsize : Word) : Decidable (Passes size maxsize) := inferInstanceAs (Decidable (_ ∧ _))

theorem narrowed_le (n : Nat) : (narrowed n).toNat ≤ n := by
  rw [narrowed, BitVec.toNat_ofNat]
  exact Nat.mod_le _ _

theorem toNat_narrowed {n : Nat} (h : n < 2 ^ 32) : (narrowed n).toNat = n := by
  rw [narrowed, BitVec.toNat_ofNat]
  exact Nat.mod_eq_of_lt h

/-- The checks of a length between the count and the bytes. -/
theorem size_checks (size maxsize : Word) {γ : Type} (x y : γ) :
    (if size > maxsize then x else if size + 1 = 0 then x else y) = if Passes size maxsize then y else x := by
  by_cases hm : size > maxsize
  · rw [if_pos hm, if_neg fun h => absurd h.1 (BitVec.not_le.mpr hm)]
  · by_cases h1 : size + 1 = 0
    · rw [if_neg hm, if_pos h1, if_neg fun h => h.2 h1]
    · rw [if_neg hm, if_neg h1, if_pos ⟨BitVec.not_lt.mp hm, h1⟩]

/-- The count is encoded, and where it passes, the bytes. -/
theorem string_encode (h : 0 ∉ s) (hr : 4 ≤ c.room) :
    flexxdrString A (memStrm .encode c) (some (s ++ 0 :: r)) maxsize =
      if Passes (narrowed s.length) maxsize then
        onField (flexxdrOpaque (memStrm .encode (c.write (toBytes (narrowed s.length)))) (s ++ 0 :: r)
          (narrowed s.length)) fun _ => some (s ++ 0 :: r)
      else .ok (false, some (s ++ 0 :: r), memStrm .encode (c.write (toBytes (narrowed s.length)))) := by
  have hu := uInt_puts (narrowed s.length) c hr
  simp only at hu
  rw [← size_checks]
  unfold flexxdrString stringSize
  simp only [memStrm_fOp, strlen_eq h, ok_bind, pure_eq_ok]
  rw [show (BitVec.ofNat 32 s.length : Word) = narrowed s.length from rfl, hu]
  simp only [ok_bind, Bool.not_true, Bool.false_eq_true, if_false, memStrm_fOp, Option.getD_some]

/-- A string is measured before anything is encoded. -/
theorem string_unterminated {X : Flexxdr σ} {sp : List Byte} {f : Fault} (hX : X.fOp = .encode)
    (h : strlen sp = .error f) : flexxdrString A X (some sp) maxsize = .error f := by
  unfold flexxdrString stringSize
  simp only [hX, h]
  rfl

/-- The bytes of the string that are sent. -/
theorem take_narrowed (s r : List Byte) : (s ++ 0 :: r).take (narrowed s.length).toNat = s.take (narrowed s.length).toNat :=
  List.take_append_of_le_length (narrowed_le _)

theorem string_puts (h : 0 ∉ s) (hp : Passes (narrowed s.length) maxsize) :
    Puts (memStrm .encode) (fun X => flexxdrString A X (some (s ++ 0 :: r)) maxsize) (some (s ++ 0 :: r))
      (toBytes (narrowed s.length) ++ padded (s.take (narrowed s.length).toNat)) := by
  intro c hc
  rw [List.length_append, length_toBytes] at hc
  have hl : (narrowed s.length).toNat ≤ (s ++ 0 :: r).length := by
    have := narrowed_le s.length
    rw [List.length_append]
    omega
  have ho := opaque_puts hl (c.write (toBytes (narrowed s.length)))
    (by rw [take_narrowed, Cursor.room_write, length_toBytes]; omega)
  simp only at ho
  simp only [string_encode h (show 4 ≤ c.room by omega)]
  rw [if_pos hp, ho, onField_ok, take_narrowed, Cursor.write_write]

/-- **What is encoded with TRUE**: the low 32 bits of the length pass, and there is room for so many bytes. -/
theorem string_true_iff (h : 0 ∉ s) : Returns (flexxdrString A (memStrm .encode c) (some (s ++ 0 :: r)) maxsize) true ↔
    Passes (narrowed s.length) maxsize ∧ 4 + rounded (narrowed s.length).toNat ≤ c.room := by
  have hk : (narrowed s.length).toNat ≤ s.length := narrowed_le _
  have hl : (narrowed s.length).toNat ≤ (s ++ 0 :: r).length := by
    rw [List.length_append]
    omega
  constructor
  · intro ht
    by_cases hr : 4 ≤ c.room
    · rw [string_encode h hr] at ht
      by_cases hp : Passes (narrowed s.length) maxsize
      · rw [if_pos hp, returns_onField] at ht
        refine ⟨hp, ?_⟩
        by_contra hc
        exact not_returns_both ht (opaque_full hl (by rw [Cursor.room_write, length_toBytes]; omega))
      · rw [if_neg hp, returns_ok] at ht
        cases ht
    · have hu := uInt_full (narrowed s.length) (show c.room < 4 by omega)
      unfold flexxdrString stringSize at ht
      simp only [memStrm_fOp, strlen_eq h, ok_bind, pure_eq_ok] at ht
      rw [show (BitVec.ofNat 32 s.length : Word) = narrowed s.length from rfl, hu] at ht
      simp only [ok_bind, Bool.not_false, if_true, returns_ok, Bool.false_eq_true] at ht
  · rintro ⟨hp, hr⟩
    have hs : (padded (s.take (narrowed s.length).toNat)).length = rounded (narrowed s.length).toNat :=
      length_padded_eq (List.length_take_of_le hk)
    exact ⟨_, _, string_puts h hp c (by rw [List.length_append, length_toBytes, hs]; exact hr)⟩

end Encode

/-! ## Decoding -/

section Decode

variable {A : Allocator} {cpp : Option (List Byte)} {maxsize size : Word} {c : MemCursor} {r bs : List Byte}

theorem string_decode (A : Allocator) (cpp : Option (List Byte)) (maxsize : Word) (hc : c.ahead = toBytes size ++ r) :
    flexxdrString A (memStrm .decode c) cpp maxsize =
      if Passes size maxsize then
        match cpp.or (A.memAlloc (size + 1)) with
        | none => .ok (false, none, memStrm .decode (c.advance 4))
        | some sp => onField (flexxdrOpaque (memStrm .decode (c.advance 4)) sp size) some
      else .ok (false, cpp, memStrm .decode (c.advance 4)) := by
  have hu := uInt_takes 0 size c r hc
  simp only [length_toBytes] at hu
  rw [← size_checks]
  unfold flexxdrString stringSize
  simp only [memStrm_fOp, hu, ok_bind, Bool.not_true, Bool.false_eq_true, if_false, pure_eq_ok]

/-- The announced bytes are stored at the front of the buffer, and what follows them is left as it was. -/
theorem string_takes {sp : List Byte} (hp : Passes size maxsize) (ht : cpp.or (A.memAlloc (size + 1)) = some sp)
    (hl : bs.length = size.toNat) (h : size.toNat ≤ sp.length) :
    Takes (memStrm .decode) (fun X => flexxdrString A X cpp maxsize) (some (bs ++ sp.drop size.toNat))
      (toBytes size ++ padded bs) := by
  intro c r hc
  rw [List.append_assoc] at hc
  have ho := opaque_takes hl h (c.advance 4) r (by rw [Cursor.ahead_advance, hc, drop_toBytes])
  simp only at ho
  simp only [string_decode A cpp maxsize hc]
  rw [if_pos hp, ht]
  simp only [ho, onField_ok, Cursor.advance_advance, List.length_append, length_toBytes]

/-- Without a buffer the bytes are refused. -/
theorem string_decode_null (hp : Passes size maxsize) (ht : cpp.or (A.memAlloc (size + 1)) = none)
    (hc : c.ahead = toBytes size ++ r) :
    flexxdrString A (memStrm .decode c) cpp maxsize = .ok (false, none, memStrm .decode (c.advance 4)) := by
  rw [string_decode A cpp maxsize hc, if_pos hp, ht]

end Decode

/-! ## Round trips -/

/-- The string `s`, stored at `sp`, is encoded with TRUE exactly when `maxsize` allows its length, and the bytes that it
is encoded as, read from any stream, are decoded into `cpp` as `s`. -/
def StringRoundTrip (A : Allocator) (sp s : List Byte) (maxsize : Word) (c : MemCursor) (cpp : Option (List Byte)) : Prop :=
  (Returns (flexxdrString A (memStrm .encode c) (some sp) maxsize) true ↔ s.length ≤ maxsize.toNat) ∧
  (Returns (flexxdrString A (memStrm .encode c) (some sp) maxsize) true →
    ∃ bs, bs.length ≤ c.room ∧
      flexxdrString A (memStrm .encode c) (some sp) maxsize = .ok (true, some sp, memStrm .encode (c.write bs)) ∧
      ∀ d r, d.ahead = bs ++ r → ∃ buf,
        flexxdrString A (memStrm .decode d) cpp maxsize = .ok (true, some buf, memStrm .decode (d.advance bs.length)) ∧
        HoldsString buf s)

/-- The buffer that a string of `n` bytes is decoded into has a NUL at their end already. -/
def Allocator.EndsAt (A : Allocator) (cpp : Option (List Byte)) (n : Nat) : Prop :=
  ∃ sp, cpp.or (A.memAlloc (narrowed n + 1)) = some sp ∧ sp[n]? = some 0

section RoundTrip

variable {A : Allocator} {s r : List Byte} {maxsize : Word} {c : MemCursor} {cpp : Option (List Byte)}

/-- A buffer with `s` at its front holds the string exactly when a NUL follows. -/
theorem holdsString_iff (h : 0 ∉ s) {sp : List Byte} : HoldsString (s ++ sp.drop s.length) s ↔ sp[s.length]? = some 0 := by
  constructor
  · rintro ⟨-, q, hq⟩
    have hd : sp.drop s.length = 0 :: q := List.append_cancel_left hq
    rw [← Nat.add_zero s.length, ← List.getElem?_drop, hd]
    rfl
  · intro h0
    obtain ⟨hlt, hz⟩ := List.getElem?_eq_some_iff.mp h0
    exact ⟨h, sp.drop (s.length + 1), by rw [List.drop_eq_getElem_cons hlt, hz]⟩

theorem toNat_narrowed_succ {n : Nat} (h : n + 1 < 2 ^ 32) : (narrowed n + 1).toNat = n + 1 := by
  rw [BitVec.toNat_add, toNat_narrowed (Nat.lt_of_succ_lt h), show (1 : Word).toNat = 1 from rfl]
  exact Nat.mod_eq_of_lt h

/-- A length that `maxsize` allows passes, if there can be a NUL after it. -/
theorem narrowed_passes {n : Nat} (h : n + 1 < 2 ^ 32) (hm : n ≤ maxsize.toNat) : Passes (narrowed n) maxsize := by
  refine ⟨by rw [BitVec.le_def, toNat_narrowed (Nat.lt_of_succ_lt h)]; exact hm, fun h1 => ?_⟩
  have hk := toNat_narrowed_succ h
  rw [h1] at hk
  cases hk

/-- The buffer that is found or allocated has a place for the NUL. -/
theorem lt_length_buffer {n : Nat} {sp : List Byte} (h : n + 1 < 2 ^ 32) (hc : ∀ b, cpp = some b → n + 1 ≤ b.length)
    (ht : cpp.or (A.memAlloc (narrowed n + 1)) = some sp) : n < sp.length := by
  cases cpp with
  | none =>
    rw [Option.none_or] at ht
    rw [A.length_memAlloc _ _ ht, toNat_narrowed_succ h]
    exact Nat.lt_succ_self n
  | some b =>
    rw [Option.some_or] at ht
    cases ht
    exact hc sp rfl

/-- Where `maxsize` allows the length, the string comes back exactly when a NUL was at its end. -/
theorem string_roundTrip_fits (h : 0 ∉ s) (hm : s.length ≤ maxsize.toNat) (hr : 4 + rounded s.length ≤ c.room)
    (hc : ∀ b, cpp = some b → s.length + 1 ≤ b.length) :
    StringRoundTrip A (s ++ 0 :: r) s maxsize c cpp ↔ A.EndsAt cpp s.length := by
  have hlt : c.room < 2 ^ 32 := c.fits
  have hn : s.length + 1 < 2 ^ 32 := by
    unfold rounded at hr
    omega
  have hk : (narrowed s.length).toNat = s.length := toNat_narrowed (Nat.lt_of_succ_lt hn)
  have hp : Passes (narrowed s.length) maxsize := narrowed_passes hn hm
  have hw : s.take (narrowed s.length).toNat = s := by rw [hk, List.take_length]
  have hpl : (toBytes (narrowed s.length) ++ padded s).length ≤ c.room := by
    rw [List.length_append, length_toBytes, length_padded_eq rfl]
    exact hr
  have hputs := string_puts (A := A) (r := r) h hp
  rw [hw] at hputs
  have henc := hputs c hpl
  simp only at henc
  constructor
  · rintro ⟨-, hrt⟩
    obtain ⟨bs, hbs, he, hd⟩ := hrt ⟨_, _, henc⟩
    have hX : memStrm .encode (c.write (toBytes (narrowed s.length) ++ padded s)) = memStrm .encode (c.write bs) := by
      rw [henc] at he
      exact congrArg (·.2.2) (Except.ok.inj he)
    obtain rfl : toBytes (narrowed s.length) ++ padded s = bs := List.append_cancel_left (memStrm_before hX)
    have ha : (MemCursor.ofBuffer (toBytes (narrowed s.length) ++ padded s) (by omega)).ahead =
      toBytes (narrowed s.length) ++ padded s ++ [] := (List.append_nil _).symm
    obtain ⟨buf, hdec, hs⟩ := hd _ [] ha
    rcases ht : cpp.or (A.memAlloc (narrowed s.length + 1)) with _ | sp
    · rw [string_decode_null hp ht (r := padded s ++ []) (by rw [ha, List.append_assoc])] at hdec
      cases hdec
    · have hsp := lt_length_buffer hn hc ht
      have hst := string_takes hp ht hk.symm (by omega) _ [] ha
      simp only [hdec] at hst
      cases hst
      rw [hk] at hs
      exact ⟨sp, ht, (holdsString_iff h).mp hs⟩
  · rintro ⟨sp, ht, h0⟩
    refine ⟨iff_of_true ⟨_, _, henc⟩ hm, fun _ => ⟨_, hpl, henc, fun d q hd => ?_⟩⟩
    have hsp := lt_length_buffer hn hc ht
    refine ⟨_, string_takes hp ht hk.symm (by omega) d q hd, ?_⟩
    rw [hk]
    exact (holdsString_iff h).mpr h0

/-- A length that `maxsize` does not allow, and that is encoded with TRUE all the same: only its low 32 bits are looked
at. -/
def SentShort (n : Nat) (maxsize : Word) (room : Nat) : Prop :=
  maxsize.toNat < n ∧ Passes (narrowed n) maxsize ∧ 4 + rounded (narrowed n).toNat ≤ room

/-- **A string comes back exactly when its length is refused or the buffer has a NUL at its end already.** -/
theorem string_roundTrip_iff (h : 0 ∉ s) (hr : s.length ≤ maxsize.toNat → 4 + rounded s.length ≤ c.room)
    (hc : ∀ b, cpp = some b → s.length + 1 ≤ b.length) :
    StringRoundTrip A (s ++ 0 :: r) s maxsize c cpp ↔
      (s.length ≤ maxsize.toNat → A.EndsAt cpp s.length) ∧ ¬ SentShort s.length maxsize c.room := by
  by_cases hm : s.length ≤ maxsize.toNat
  · rw [string_roundTrip_fits h hm (hr hm) hc]
    exact ⟨fun he => ⟨fun _ => he, fun hs => absurd hs.1 (by omega)⟩, fun he => he.1 hm⟩
  · have hmem : ¬ SentShort s.length maxsize c.room ↔
        ¬ Returns (flexxdrString A (memStrm .encode c) (some (s ++ 0 :: r)) maxsize) true := by
      rw [string_true_iff h]
      exact not_congr ⟨fun hs => hs.2, fun hs => ⟨by omega, hs⟩⟩
    rw [hmem]
    constructor
    · rintro ⟨hiff, -⟩
      exact ⟨fun hle => absurd hle hm, fun ht => hm (hiff.mp ht)⟩
    · rintro ⟨-, hn⟩
      exact ⟨iff_of_false hn hm, fun ht => absurd ht hn⟩

end RoundTrip

/-- A string that is received into a new buffer of zeros. -/
theorem string_roundTrip_calloc :
    StringRoundTrip calloc [65, 0] [65] 10 (MemCursor.ofBuffer (List.replicate 8 0) (by decide)) none :=
  (string_roundTrip_iff (s := [65]) (r := []) (by decide) (fun _ => by decide) (by simp)).mpr
    ⟨fun _ => ⟨[0, 0], rfl, rfl⟩, fun hs => absurd hs.1 (by decide)⟩

/-- A string that is received into a buffer that held something else. -/
theorem string_not_ended :
    ¬ StringRoundTrip calloc [65, 0] [65] 10 (MemCursor.ofBuffer (List.replicate 8 0) (by decide)) (some [1, 2]) := by
  intro h
  obtain ⟨sp, ht, h0⟩ := (string_roundTrip_fits (s := [65]) (r := []) (by decide) (by decide) (by decide) (by
    intro b hb
    cases hb
    decide)).mp h
  cases ht
  cases h0

end Cornflakes.Flexrpc

import Mathlib.Data.List.Forall2
import Cornflakes.Flexrpc.Prim

/-!
# Sequences of primitive items

An `Item` is a C variable of one of the types that the primitive codecs work on, and `Item.code` is its codec. A
sequence of items that is encoded into a memory stream is decoded from it in the same order, whatever follows, and is
refused when it is cut short (`items_roundTrip`). A `Transfer` is one item of such a sequence, with the variable that
it is received into.
-/

set_option autoImplicit false

namespace Cornflakes.Flexrpc

open Wire

variable {σ : Type}

/-- A variable that a codec works on. The variable of opaque bytes is the buffer at `cp`, and that of counted bytes is
the pointer `*cpp`, with the buffer there, and the count. -/
inductive Item
  | int (ip : Word)
  | enum (ep : Word)
  | long (lp : ULong)
  | uLong (ulp : ULong)
  | char (cp : Byte)
  | uInt (up : Word)
  | fixed (cp : List Byte) (cnt : Word)
  | counted (cpp : Option (List Byte)) (size maxsize : Word)

namespace Item

/-- The codec of the item's type. -/
def code (A : Allocator) (X : Flexxdr σ) : Item → Except Fault (Outcome σ Item)
  | int ip => onField (flexxdrInt X ip) int
  | enum ep => onField (flexxdrEnum X ep) enum
  | long lp => onField (flexxdrLong X lp) long
  | uLong ulp => onField (flexxdrULong X ulp) uLong
  | char cp => onField (flexxdrChar X cp) char
  | uInt up => onField (flexxdrUInt X up) uInt
  | fixed cp cnt => onField (flexxdrOpaque X cp cnt) (fixed · cnt)
  | counted cpp size maxsize => onField (flexxdrBytes A X cpp size maxsize) fun b => counted b.1 b.2 maxsize

/-- What may be sent: a long within `int32_t`, an unsigned long within `uint32_t`, a buffer that holds the bytes, and
no more counted bytes than the maximum. -/
def Sendable : Item → Prop
  | long lp => -2 ^ 31 ≤ lp.toInt ∧ lp.toInt < 2 ^ 31
  | uLong ulp => ulp.toNat < 2 ^ 32
  | fixed cp cnt => cnt.toNat ≤ cp.length
  | counted cpp size maxsize => size.toNat ≤ (cpp.getD []).length ∧ size ≤ maxsize
  | _ => True

/-- The variable `into` can receive the item: it is of the same type, and of the same count or maximum, and its buffer
is large enough, or is NULL and is allocated. -/
def Receives (A : Allocator) (into : Item) : Item → Prop
  | int _ => ∃ ip, into = int ip
  | enum _ => ∃ ep, into = enum ep
  | long _ => ∃ lp, into = long lp
  | uLong _ => ∃ ulp, into = uLong ulp
  | char _ => ∃ cp, into = char cp
  | uInt _ => ∃ up, into = uInt up
  | fixed _ cnt => ∃ cp, into = fixed cp cnt ∧ cnt.toNat ≤ cp.length
  | counted _ size maxsize => ∃ cpp old, into = counted cpp old maxsize ∧ A.Holds cpp size

/-- The variables hold the same value: of a buffer, the bytes that are counted. -/
def Same : Item → Item → Prop
  | fixed cp cnt, fixed cp' cnt' => cnt = cnt' ∧ cp.take cnt.toNat = cp'.take cnt.toNat
  | counted cpp size maxsize, counted cpp' size' maxsize' =>
    size = size' ∧ maxsize = maxsize' ∧ (cpp.getD []).take size.toNat = (cpp'.getD []).take size.toNat
  | i, j => i = j

/-- The bytes of the item. -/
def bytes : Item → List Byte
  | int ip => toBytes ip
  | enum ep => toBytes ep
  | long lp => toBytes (lp.setWidth 32)
  | uLong ulp => toBytes (ulp.setWidth 32)
  | char cp => toBytes (cp.signExtend 32)
  | uInt up => toBytes up
  | fixed cp cnt => padded (cp.take cnt.toNat)
  | counted cpp size _ => toBytes size ++ padded ((cpp.getD []).take size.toNat)

/-- What `into` holds after the item was received. -/
def received (A : Allocator) (sent into : Item) : Item :=
  match sent, into with
  | fixed cp cnt, fixed cp' _ => fixed (cp.take cnt.toNat ++ cp'.drop cnt.toNat) cnt
  | counted cpp size maxsize, counted cpp' _ _ =>
    counted (A.filled cpp' size ((cpp.getD []).take size.toNat)) size maxsize
  | i, _ => i

theorem length_bytes_mod (i : Item) : i.bytes.length % 4 = 0 := by
  cases i with
  | fixed cp cnt => exact length_padded_mod _
  | counted cpp size maxsize =>
    have hp := length_padded_mod ((cpp.getD []).take size.toNat)
    rw [bytes, List.length_append, length_toBytes]
    omega
  | int | enum | long | uLong | char | uInt => simp only [bytes, length_toBytes]

variable {A : Allocator}

theorem code_puts {i : Item} (h : i.Sendable) : Puts (memStrm .encode) (fun X => i.code A X) i i.bytes := by
  cases i with
  | int ip => exact (int_puts ip).last rfl
  | enum ep => exact (enum_puts ep).last rfl
  | long lp => exact (long_puts ((signExtend_fits lp).mpr h)).last rfl
  | uLong ulp => exact (uLong_puts h).last rfl
  | char cp => exact (char_puts cp).last rfl
  | uInt up => exact (uInt_puts up).last rfl
  | fixed cp cnt =>
    show Puts _ (fun X => onField (flexxdrOpaque X cp cnt) (fixed · cnt)) _ _
    exact (opaque_puts h).last rfl
  | counted cpp size maxsize =>
    show Puts _ (fun X => onField (flexxdrBytes A X cpp size maxsize) fun b => counted b.1 b.2 maxsize) _ _
    exact (bytes_puts A h.2 h.1).last rfl

theorem code_takes {i into : Item} (h : i.Sendable) (hr : into.Receives A i) :
    Takes (memStrm .decode) (fun X => into.code A X) (i.received A into) i.bytes := by
  cases i with
  | int ip =>
    obtain ⟨old, rfl⟩ := hr
    exact (int_takes old ip).last
  | enum ep =>
    obtain ⟨old, rfl⟩ := hr
    exact (enum_takes old ep).last
  | long lp =>
    obtain ⟨old, rfl⟩ := hr
    have ht := long_takes old (lp.setWidth 32)
    rw [(signExtend_fits lp).mpr h] at ht
    exact ht.last
  | uLong ulp =>
    obtain ⟨old, rfl⟩ := hr
    have ht := uLong_takes old (ulp.setWidth 32)
    rw [(setWidth_fits ulp).mpr h] at ht
    exact ht.last
  | char cp =>
    obtain ⟨old, rfl⟩ := hr
    exact (char_takes old cp).last
  | uInt up =>
    obtain ⟨old, rfl⟩ := hr
    exact (uInt_takes old up).last
  | fixed cp cnt =>
    obtain ⟨old, rfl, ho⟩ := hr
    show Takes _ (fun X => onField (flexxdrOpaque X old cnt) (fixed · cnt)) _ _
    exact (opaque_takes (List.length_take_of_le h) ho).last
  | counted cpp size maxsize =>
    obtain ⟨old, n, rfl, ho⟩ := hr
    show Takes _ (fun X => onField (flexxdrBytes A X old n maxsize) fun b => counted b.1 b.2 maxsize) _ _
    exact (bytes_takes n h.2 (List.length_take_of_le h.1) ho).last

theorem code_starves {i into : Item} (h : i.Sendable) (hr : into.Receives A i) :
    Starves (memStrm .decode) (fun X => into.code A X) i.bytes := by
  cases i with
  | int ip =>
    obtain ⟨old, rfl⟩ := hr
    exact (int_starves old ip).last _
  | enum ep =>
    obtain ⟨old, rfl⟩ := hr
    exact (enum_starves old ep).last _
  | long lp =>
    obtain ⟨old, rfl⟩ := hr
    exact (long_starves old _).last _
  | uLong ulp =>
    obtain ⟨old, rfl⟩ := hr
    exact (uLong_starves old _).last _
  | char cp =>
    obtain ⟨old, rfl⟩ := hr
    exact (char_starves old _).last _
  | uInt up =>
    obtain ⟨old, rfl⟩ := hr
    exact (uInt_starves old up).last _
  | fixed cp cnt =>
    obtain ⟨old, rfl, ho⟩ := hr
    show Starves _ (fun X => onField (flexxdrOpaque X old cnt) (fixed · cnt)) _
    exact (opaque_starves (List.length_take_of_le h) ho).last _
  | counted cpp size maxsize =>
    obtain ⟨old, n, rfl, ho⟩ := hr
    show Starves _ (fun X => onField (flexxdrBytes A X old n maxsize) fun b => counted b.1 b.2 maxsize) _
    exact (bytes_starves n h.2 (List.length_take_of_le h.1) ho).last _

theorem same_received {i into : Item} (h : i.Sendable) (hr : into.Receives A i) : Same i (i.received A into) := by
  cases i with
  | fixed cp cnt =>
    obtain ⟨old, rfl, ho⟩ := hr
    have hl : (cp.take cnt.toNat).length = cnt.toNat := List.length_take_of_le h
    refine ⟨rfl, ?_⟩
    rw [List.take_append_of_le_length (Nat.le_of_eq hl.symm), List.take_take, Nat.min_self]
  | counted cpp size maxsize =>
    obtain ⟨old, n, rfl, ho⟩ := hr
    have hl : ((cpp.getD []).take size.toNat).length = size.toNat := List.length_take_of_le h.1
    refine ⟨rfl, rfl, ?_⟩
    rcases Decidable.em (size = 0) with h0 | h0
    · subst h0
      rw [show (0 : Word).toNat = 0 from rfl, List.take_zero, List.take_zero]
    · obtain ⟨sp, ht, hs⟩ := ho.resolve_left h0
      rw [Allocator.filled, if_neg h0, ht, Option.map_some, Option.getD_some,
        List.take_append_of_le_length (Nat.le_of_eq hl.symm), List.take_take, Nat.min_self]
  | int | enum | long | uLong | char | uInt => rfl

end Item

/-! ## Sequences -/

/-- An item to be sent and the variable that it is received into. -/
structure Transfer (A : Allocator) where
  sent : Item
  into : Item
  sendable : sent.Sendable
  receives : into.Receives A sent

namespace Transfer

variable {A : Allocator}

/-- The bytes of a sequence. -/
def wire (ts : List (Transfer A)) : List Byte := ts.flatMap fun t => t.sent.bytes

/-- What the variable holds afterwards. -/
def left (t : Transfer A) : Item := t.sent.received A t.into

theorem length_wire_mod (ts : List (Transfer A)) : (wire ts).length % 4 = 0 := by
  induction ts with
  | nil => rfl
  | cons t ts ih =>
    have ht := t.sent.length_bytes_mod
    rw [wire, List.flatMap_cons, List.length_append]
    rw [wire] at ih
    omega

theorem same_left (ts : List (Transfer A)) : List.Forall₂ Item.Same (ts.map sent) (ts.map left) := by
  rw [List.forall₂_map_left_iff, List.forall₂_map_right_iff, List.forall₂_same]
  exact fun t _ => Item.same_received t.sendable t.receives

end Transfer

/-- The codecs of the items run one after another. -/
def codeAll (A : Allocator) (X : Flexxdr σ) (is : List Item) : Except Fault (Outcome σ (List Item)) :=
  runAll (fun X i => i.code A X) X is

theorem codeAll_puts {A : Allocator} (ts : List (Transfer A)) :
    Puts (memStrm .encode) (fun X => codeAll A X (ts.map Transfer.sent)) (ts.map Transfer.sent) (Transfer.wire ts) :=
  Puts.list ts fun t _ => Item.code_puts t.sendable

theorem codeAll_takes {A : Allocator} (ts : List (Transfer A)) :
    Takes (memStrm .decode) (fun X => codeAll A X (ts.map Transfer.into)) (ts.map Transfer.left) (Transfer.wire ts) :=
  Takes.list ts fun t _ => Item.code_takes t.sendable t.receives

theorem codeAll_starves {A : Allocator} (ts : List (Transfer A)) :
    Starves (memStrm .decode) (fun X => codeAll A X (ts.map Transfer.into)) (Transfer.wire ts) :=
  Starves.list ts (fun t _ => Item.code_takes (A := A) t.sendable t.receives)
    fun t _ => Item.code_starves (A := A) t.sendable t.receives

/-- A sequence that is encoded at the place `c` can be decoded again. -/
structure RoundTrips (A : Allocator) (ts : List (Transfer A)) (c : MemCursor) : Prop where
  /-- After each item the encoder has returned TRUE and moved on by whole units. -/
  encodes : ∀ n ≤ ts.length, ∃ c', codeAll A (memStrm .encode c) ((ts.take n).map Transfer.sent) =
    .ok (true, (ts.take n).map Transfer.sent, memStrm .encode c') ∧ c.pos ≤ c'.pos ∧ (c'.pos - c.pos) % 4 = 0
  /-- What it has put there is decoded, whatever follows, up to the place where it stopped, and a proper beginning of
  it is refused. -/
  decodes : ∃ c' bs, codeAll A (memStrm .encode c) (ts.map Transfer.sent) =
      .ok (true, ts.map Transfer.sent, memStrm .encode c') ∧ c'.before = c.before ++ bs ∧
    (∀ (d : MemCursor) (r : List Byte), d.ahead = bs ++ r →
      ∃ is d', codeAll A (memStrm .decode d) (ts.map Transfer.into) = .ok (true, is, memStrm .decode d') ∧
        List.Forall₂ Item.Same (ts.map Transfer.sent) is ∧ d'.cells = d.cells ∧ d'.pos = d.pos + (c'.pos - c.pos)) ∧
    ∀ (d : MemCursor) (q : List Byte), q ≠ [] → bs = d.ahead ++ q →
      ∃ is d', codeAll A (memStrm .decode d) (ts.map Transfer.into) = .ok (false, is, memStrm .decode d')

/-- Every sequence of items that may be sent round-trips through every memory stream with enough room, and a `long` or
an `unsigned long` that does not fit in 32 bits is refused. -/
theorem items_roundTrip (A : Allocator) :
    (∀ (ts : List (Transfer A)) (c : MemCursor), (Transfer.wire ts).length ≤ c.room → RoundTrips A ts c) ∧
    (∀ (X : Flexxdr FlexxdrMem) (lp : ULong), X.fOp = .encode → lp.toInt < -2 ^ 31 ∨ 2 ^ 31 ≤ lp.toInt →
      flexxdrLong X lp = .ok (false, lp, X)) ∧
    ∀ (X : Flexxdr FlexxdrMem) (ulp : ULong), X.fOp = .encode → 2 ^ 32 ≤ ulp.toNat →
      flexxdrULong X ulp = .ok (false, ulp, X) := by
  refine ⟨fun ts c hr => ⟨?_, ?_⟩, fun X lp hX h => long_refused hX h, fun X ulp hX h => uLong_refused_wide hX h⟩
  · intro n _
    have hs : Transfer.wire ts = Transfer.wire (ts.take n) ++ Transfer.wire (ts.drop n) := by
      rw [Transfer.wire, Transfer.wire, Transfer.wire, ← List.flatMap_append, List.take_append_drop]
    rw [hs, List.length_append] at hr
    have hm := Transfer.length_wire_mod (ts.take n)
    refine ⟨c.write (Transfer.wire (ts.take n)), codeAll_puts (ts.take n) c (by omega), ?_, ?_⟩
    · rw [Cursor.pos_write]
      omega
    · rw [Cursor.pos_write]
      omega
  · refine ⟨c.write (Transfer.wire ts), Transfer.wire ts, codeAll_puts ts c hr, rfl, ?_, ?_⟩
    · intro d r hd
      have hl : (Transfer.wire ts).length ≤ d.room := by
        rw [Cursor.room, hd, List.length_append]
        omega
      refine ⟨_, _, codeAll_takes ts d r hd, Transfer.same_left ts, d.cells_advance _, ?_⟩
      rw [d.pos_advance hl, Cursor.pos_write]
      omega
    · intro d q hq hd
      exact codeAll_starves ts d q hq hd

/-- An allocator that never fails. -/
def calloc : Allocator where
  memAlloc n := some (List.replicate n.toNat 0)
  length_memAlloc n bs h := by
    cases h
    exact List.length_replicate

/-- A char, an opaque of three bytes, a negative long, and two counted bytes that are received into a new buffer. -/
def mixedItems : List (Transfer calloc) :=
  [⟨.char 200, .char 0, trivial, 0, rfl⟩,
   ⟨.fixed [1, 2, 3, 4] 3, .fixed [9, 9, 9] 3, Nat.le_succ 3, [9, 9, 9], rfl, Nat.le_refl 3⟩,
   ⟨.long (-5), .long 0, ⟨by decide, by decide⟩, 0, rfl⟩,
   ⟨.counted (some [7, 8]) 2 16, .counted none 0 16, ⟨by decide, by decide⟩, none, 0, rfl,
     Or.inr ⟨[0, 0], rfl, Nat.le_refl 2⟩⟩]

theorem items_roundTrip_mixed :
    RoundTrips calloc mixedItems (MemCursor.ofBuffer (List.replicate 20 0) (by decide)) ∧
    flexxdrLong (flexxdrmemCreate [] 0 .encode) 0x80000000 = .ok (false, 0x80000000, flexxdrmemCreate [] 0 .encode) ∧
    flexxdrULong (flexxdrmemCreate [] 0 .encode) 0x100000000 = .ok (false, 0x100000000, flexxdrmemCreate [] 0 .encode) :=
  ⟨(items_roundTrip calloc).1 mixedItems _ (by decide), (items_roundTrip calloc).2.1 _ _ rfl (by decide),
    (items_roundTrip calloc).2.2 _ _ rfl (by decide)⟩

end Cornflakes.Flexrpc

import Cornflakes.Wire.Framing
import Cornflakes.Wire.Heap
import Cornflakes.Flexrpc.Stream

/-!
# Record streams (`flexxdr_rec.c`)

A record stream keeps an output and an input area in one block of memory and talks to the procedures `readit` and
`writeit` of a `Transport`. Addresses are integers, and the casts of their differences to C types are written out
(`toInt`, `toUInt`, `toSize`). A loop of the source is a recursion on what goes down in it; only
`flexxdrrecSkiprecord` need not end, and takes the number of rounds it may go. `flexxdrrecPutbytes` gives `none` where
its loop goes round without doing anything.

Two fields of `RecStrm` are not in the C struct: `sent` has the blocks that were handed to `writeit` so far, and `trace`
the accesses to the two areas.
-/

set_option autoImplicit false

namespace Cornflakes.Flexrpc

open Wire

/-- The procedures behind `flextcp_handle`. `readit` gives the bytes it stored, never more than were asked for, and the
value it returned; `writeit` is given the bytes at its pointer. -/
structure Transport (ρ ω : Type) where
  readit : ρ → Nat → List Byte × Int × ρ
  length_readit : ∀ r n, (readit r n).1.length ≤ n
  writeit : ω → List Byte → Int × ω

/-- An access to one of the areas: `put` stores output, `fill` is the store of `readit`, and `take` consumes input. -/
inductive Access
  | put (addr : Int) (n : Nat)
  | fill (addr : Int) (n : Nat)
  | take (addr : Int) (n : Nat)
deriving DecidableEq, Repr

/-- `RECSTREAM`, the memory it points into, and the state behind its handle. `locals` has what the locals that are not
initialised find on the stack, in the order in which they are entered. -/
structure RecStrm (ρ ω : Type) where
  mem : Heap Byte
  outBase : Int
  outFinger : Int
  outBoundary : Int
  fragHeader : Int
  fragSent : Bool
  inSize : Int
  inBase : Int
  inFinger : Int
  inBoundary : Int
  fbtbc : Int
  lastFrag : Bool
  reader : ρ
  writer : ω
  locals : Nat → Word
  sent : List (List Byte)
  trace : List Access

/-! ## Casts -/

/-- `(int) i`. -/
def toInt (i : Int) : Int := if 2 ^ 31 ≤ i % 2 ^ 32 then i % 2 ^ 32 - 2 ^ 32 else i % 2 ^ 32

/-- `(u_int) i`. -/
def toUInt (i : Int) : Nat := (i % 2 ^ 32).toNat

/-- `(size_t) i`. -/
def toSize (i : Int) : Nat := (i % 2 ^ 64).toNat

/-- `LAST_FRAG`, in the 32 bits of a header. -/
def lastFragBit : Word := 1 <<< 31

/-- A local variable: the bytes stored at it, and what it held where none were. -/
def overlay (cells : List (Option Byte)) (w : Word) : Word :=
  match List.zipWith (fun c b => c.getD b) (cells ++ List.replicate 4 none) (toBytes w) with
  | [a, b, c, d] => ofBytes a b c d
  | _ => w

/-- Four bytes that were all stored are what the variable holds. -/
theorem overlay_word (w junk : Word) : overlay ((toBytes w).map some) junk = w := by
  have h : (List.zipWith (fun (c : Option Byte) b => c.getD b) ((toBytes w).map some ++ List.replicate 4 none)
      (toBytes junk)) = toBytes w := by
    simp only [toBytes, List.map_cons, List.map_nil, List.cons_append, List.zipWith_cons_cons, Option.getD_some,
      List.nil_append, List.zipWith_nil_right]
  rw [overlay, h]
  exact ofBytes_toBytes w

/-! ## Creation -/

/-- `RNDUP`, as the header selects it. -/
def flexxdrRndup (x : Word) : Word := (x - 4 - 1) &&& ~~~(4 - 1)

def fixBufSize (s : Word) : Word :=
  let s := if s < 100 then 4000 else s
  flexxdrRndup s

variable {ρ ω : Type}

/-- `flexxdrrec_create` when `mem_alloc` gave it the block at `buf`. -/
def flexxdrrecCreate (sendsize recvsize : Word) (buf : Int) (mem : Heap Byte) (reader : ρ) (writer : ω)
    (locals : Nat → Word) : RecStrm ρ ω :=
  let sendsize := fixBufSize sendsize
  let recvsize := fixBufSize recvsize
  let tmp := if buf % 4 ≠ 0 then buf + (4 - buf % 4) else buf
  { mem := mem
    outBase := tmp
    outFinger := tmp + 16
    outBoundary := tmp + 16 + sendsize.toNat
    fragHeader := tmp
    fragSent := false
    inSize := recvsize.toNat
    inBase := tmp + sendsize.toNat
    inFinger := tmp + sendsize.toNat + recvsize.toNat
    inBoundary := tmp + sendsize.toNat + recvsize.toNat
    fbtbc := 0
    lastFrag := true
    reader := reader
    writer := writer
    locals := locals
    sent := []
    trace := [] }

namespace RecStrm

variable (s : RecStrm ρ ω)

/-- Store output at `addr`. -/
def put (addr : Int) (bs : List Byte) : RecStrm ρ ω :=
  { s with mem := s.mem.store addr bs, trace := s.trace ++ [.put addr bs.length] }

/-- Move `in_finger` over `n` bytes. -/
def take (n : Int) : RecStrm ρ ω :=
  { s with inFinger := s.inFinger + n, trace := s.trace ++ [.take s.inFinger (toSize n)] }

/-- The `int` that the loops compute as `in_boundary - in_finger`. -/
def window : Int := toInt (s.inBoundary - s.inFinger)

/-- Enter a function with an uninitialised local. -/
def enter : RecStrm ρ ω := { s with locals := fun n => s.locals (n + 1) }

end RecStrm

variable (T : Transport ρ ω)

/-! ## Sending -/

/-- The call of `writeit` guards nothing but a `printf`, and `return FALSE` follows in any case. -/
def flushOut (s : RecStrm ρ ω) (eor : Bool) : Bool × RecStrm ρ ω :=
  let eormask : Word := if eor then lastFragBit else 0
  -- The difference of two pointers to `int32_t`.
  let len := (s.outFinger - s.fragHeader) / 4 - 4
  let s := s.put s.fragHeader (toBytes (BitVec.ofInt 32 len ||| eormask))
  let block := s.mem.load s.outFinger 4
  let (_, w) := T.writeit s.writer block
  (false, { s with writer := w, sent := s.sent ++ [block] })

/-- `out_finger` is set back to the place of the word that was stored. -/
def flexxdrrecPutlong (s : RecStrm ρ ω) (lp : ULong) : Bool × RecStrm ρ ω :=
  let destLp := s.outFinger
  let s := { s with outFinger := s.outFinger + 4 }
  if s.outFinger > s.outBoundary then
    let s := { s with outFinger := s.outFinger - 4, fragSent := true }
    let (ok, s) := flushOut T s false
    if !ok then (false, s)
    else
      let destLp := s.outFinger
      let s := { s with outFinger := s.outFinger + 4 }
      let s := s.put destLp (toBytes (lp.setWidth 32))
      (true, { s with outFinger := destLp })
  else
    let s := s.put destLp (toBytes (lp.setWidth 32))
    (true, { s with outFinger := destLp })

/-- One round copies what fits. -/
def putbytesCopy (s : RecStrm ρ ω) (addr : List Byte) : RecStrm ρ ω × List Byte :=
  let current := toUInt (s.outBoundary - s.outFinger)
  let current := if addr.length < current then addr.length else current
  let s := s.put s.outFinger (addr.take current)
  ({ s with outFinger := s.outFinger + current }, addr.drop current)

/-- What is copied is as much as there is to copy, and as there is room for. -/
theorem putbytesCopy_eq {s : RecStrm ρ ω} {addr : List Byte} {n : Nat}
    (hn : min addr.length (toUInt (s.outBoundary - s.outFinger)) = n) :
    putbytesCopy s addr =
      ({ s.put s.outFinger (addr.take n) with outFinger := s.outFinger + n }, addr.drop n) := by
  rw [min_def_lt] at hn
  unfold putbytesCopy
  simp only [hn]
  rfl

theorem putbytesCopy_le (s : RecStrm ρ ω) (addr : List Byte) : (putbytesCopy s addr).2.length ≤ addr.length := by
  rw [putbytesCopy_eq rfl, List.length_drop]
  exact Nat.sub_le _ _

/-- The bytes are the `len` bytes at `addr`. -/
def flexxdrrecPutbytes (s : RecStrm ρ ω) (addr : List Byte) : Option (Bool × RecStrm ρ ω) :=
  if addr.length > 0 then
    match _hc : putbytesCopy s addr with
    | (s', rest) =>
      if s'.outFinger = s'.outBoundary ∧ rest.length > 0 then
        match _hf : flushOut T { s' with fragSent := true } false with
        | (false, s') => some (false, s')
        | (true, s') => flexxdrrecPutbytes s' rest
      else if rest.length = addr.length then none
      else flexxdrrecPutbytes s' rest
  else some (true, s)
termination_by addr.length
decreasing_by
  · cases (congrArg Prod.fst _hf : false = true)
  · have hl := putbytesCopy_le s addr
    rw [_hc] at hl
    exact Nat.lt_of_le_of_ne hl ‹_›

section Putbytes

variable {T} {s s' : RecStrm ρ ω} {addr rest : List Byte}

theorem recPutbytes_done (ha : ¬ addr.length > 0) : flexxdrrecPutbytes T s addr = some (true, s) := by
  rw [flexxdrrecPutbytes, if_neg ha]

/-- The area is full and the rest would have to wait: the flush that has to make room never returns TRUE. -/
theorem recPutbytes_full (ha : addr.length > 0) (hc : putbytesCopy s addr = (s', rest))
    (hb : s'.outFinger = s'.outBoundary ∧ rest.length > 0) :
    flexxdrrecPutbytes T s addr = some (false, (flushOut T { s' with fragSent := true } false).2) := by
  rw [flexxdrrecPutbytes, if_pos ha]
  split
  next _ _ hc' =>
    rw [hc] at hc'
    cases hc'
    rw [if_pos hb]
    rfl

theorem recPutbytes_next (ha : addr.length > 0) (hc : putbytesCopy s addr = (s', rest))
    (hb : ¬ (s'.outFinger = s'.outBoundary ∧ rest.length > 0)) :
    flexxdrrecPutbytes T s addr = if rest.length = addr.length then none else flexxdrrecPutbytes T s' rest := by
  rw [flexxdrrecPutbytes, if_pos ha]
  split
  next _ _ hc' =>
    rw [hc] at hc'
    cases hc'
    rw [if_neg hb]

/-- What fits is copied in one round. -/
theorem recPutbytes_fits (ha : addr.length > 0) (hf : addr.length ≤ toUInt (s.outBoundary - s.outFinger)) :
    flexxdrrecPutbytes T s addr =
      some (true, { s.put s.outFinger addr with outFinger := s.outFinger + addr.length }) := by
  have hc : putbytesCopy s addr = ({ s.put s.outFinger addr with outFinger := s.outFinger + addr.length }, []) := by
    rw [putbytesCopy_eq (min_eq_left hf), List.take_length, List.drop_length]
  rw [recPutbytes_next ha hc (by simp), if_neg (by simp; omega), recPutbytes_done (by simp)]

end Putbytes

def flexxdrrecEndofrecord (s : RecStrm ρ ω) (sendnow : Bool) : Bool × RecStrm ρ ω :=
  if sendnow ∨ s.fragSent ∨ s.outFinger + 4 ≥ s.outBoundary then
    flushOut T { s with fragSent := false } true
  else
    let len := s.outFinger - s.fragHeader - 4
    let s := s.put s.fragHeader (toBytes (BitVec.ofInt 32 len ||| lastFragBit))
    (true, { s with fragHeader := s.outFinger, outFinger := s.outFinger + 4 })

/-! ## Receiving -/

/-- Four bytes are asked for, and whatever `readit` returns, unless it is -1, four are taken to be there. -/
def fillInputBuf (s : RecStrm ρ ω) : Bool × RecStrm ρ ω :=
  let (bs, len, r) := T.readit s.reader 4
  let s := { s with mem := s.mem.store s.inBase bs, reader := r, trace := s.trace ++ [.fill s.inBase bs.length] }
  if len = -1 then (false, s)
  else (true, { s with inFinger := s.inBase, inBoundary := s.inBase + 4 })

/-- The round of `get_input_bytes` that copies; `len = 0` at its end makes it the last. -/
def inputCopy (s : RecStrm ρ ω) (len : Int) : Bool × List Byte × RecStrm ρ ω :=
  let current := s.window
  let current := if len < current then len else current
  (true, s.mem.load s.inFinger (toSize current), s.take current)

/-- The result and the bytes stored at `addr`. After a refill the window is not empty, so the round that follows it is
the one that copies. -/
def getInputBytes (s : RecStrm ρ ω) (len : Int) : Bool × List Byte × RecStrm ρ ω :=
  if len > 0 then
    if s.window = 0 then
      let (ok, s) := fillInputBuf T s
      if !ok then (false, [], s)
      else inputCopy s len
    else inputCopy s len
  else (true, [], s)

theorem window_fill {s s' : RecStrm ρ ω} (h : fillInputBuf T s = (true, s')) : s'.window = 4 := by
  unfold fillInputBuf at h
  simp only at h
  split at h
  · cases h
  · cases h
    simp only [RecStrm.window, toInt, show s.inBase + 4 - s.inBase = 4 by omega]
    rfl

/-- One round of `skip_input_bytes` after the refill, if it needed one. -/
def inputSkip (s : RecStrm ρ ω) (cnt : Int) : RecStrm ρ ω × Int :=
  let current := s.window
  let current := if cnt < current then cnt else current
  (s.take current, cnt - current)

/-- What goes down in `skip_input_bytes`: the bytes to skip, and at last the rounds that only refill the window or bring
crossed pointers together. -/
def RecStrm.skipRank (s : RecStrm ρ ω) (cnt : Int) : Nat × Nat :=
  ((cnt + max 0 (-s.window)).toNat, if s.window < 0 then 2 else if s.window = 0 then 1 else 0)

theorem window_take (s : RecStrm ρ ω) {n : Int} (h₀ : min 0 s.window ≤ n) (h₁ : n ≤ max 0 s.window) :
    (s.take n).window = s.window - n := by
  unfold RecStrm.window RecStrm.take toInt at *
  dsimp only at *
  omega

theorem skipRank_fill {s s' : RecStrm ρ ω} (hw : s.window = 0) (h : fillInputBuf T s = (true, s')) (cnt : Int) :
    Prod.Lex (· < ·) (· < ·) (s'.skipRank cnt) (s.skipRank cnt) := by
  unfold RecStrm.skipRank
  rw [window_fill T h, hw]
  exact Prod.Lex.right _ Nat.zero_lt_one

theorem skipRank_skip {s s' : RecStrm ρ ω} {cnt cnt' : Int} (hc : cnt > 0) (hw : s.window ≠ 0)
    (h : inputSkip s cnt = (s', cnt')) : Prod.Lex (· < ·) (· < ·) (s'.skipRank cnt') (s.skipRank cnt) := by
  unfold inputSkip at h
  obtain ⟨rfl, rfl⟩ := Prod.mk.inj h
  unfold RecStrm.skipRank
  by_cases hlt : cnt < s.window
  · -- The window holds all that is left to skip.
    simp only [if_pos hlt]
    rw [window_take s (by omega) (by omega)]
    exact Prod.Lex.left _ _ (by omega)
  · simp only [if_neg hlt]
    rw [window_take s (by omega) (by omega)]
    by_cases h0 : s.window < 0
    · rw [if_pos h0, show (cnt - s.window + max 0 (-(s.window - s.window))).toNat = (cnt + max 0 (-s.window)).toNat by
        omega, if_neg (by omega), if_pos (by omega)]
      exact Prod.Lex.right _ Nat.one_lt_two
    · exact Prod.Lex.left _ _ (by omega)

def skipInputBytes (s : RecStrm ρ ω) (cnt : Int) : Bool × RecStrm ρ ω :=
  if cnt > 0 then
    if s.window = 0 then
      match _h : fillInputBuf T s with
      | (false, s') => (false, s')
      | (true, s') => skipInputBytes s' cnt
    else
      match _h : inputSkip s cnt with
      | (s', cnt') => skipInputBytes s' cnt'
  else (true, s)
termination_by s.skipRank cnt
decreasing_by
  · exact skipRank_fill T ‹_› _h cnt
  · exact skipRank_skip ‹_› ‹_› _h

section Skip

variable {T} {s s' : RecStrm ρ ω} {cnt cnt' : Int}

theorem skipInput_done (h : ¬ cnt > 0) : skipInputBytes T s cnt = (true, s) := by
  rw [skipInputBytes, if_neg h]

theorem skipInput_refused (h : cnt > 0) (hw : s.window = 0) (hf : fillInputBuf T s = (false, s')) :
    skipInputBytes T s cnt = (false, s') := by
  rw [skipInputBytes, if_pos h, if_pos hw]
  split
  next _ hf' =>
    rw [hf] at hf'
    cases hf'
    rfl
  next _ hf' =>
    rw [hf] at hf'
    cases hf'

theorem skipInput_refill (h : cnt > 0) (hw : s.window = 0) (hf : fillInputBuf T s = (true, s')) :
    skipInputBytes T s cnt = skipInputBytes T s' cnt := by
  rw [skipInputBytes, if_pos h, if_pos hw]
  split
  next _ hf' =>
    rw [hf] at hf'
    cases hf'
  next _ hf' =>
    rw [hf] at hf'
    cases hf'
    rfl

theorem skipInput_next (h : cnt > 0) (hw : ¬ s.window = 0) (hc : inputSkip s cnt = (s', cnt')) :
    skipInputBytes T s cnt = skipInputBytes T s' cnt' := by
  rw [skipInputBytes, if_pos h, if_neg hw]
  split
  next _ _ hc' =>
    rw [hc] at hc'
    cases hc'
    rfl

end Skip

def setInputFragment (s : RecStrm ρ ω) : Bool × RecStrm ρ ω :=
  let junk := s.locals 0
  let (ok, bs, s) := getInputBytes T s.enter 4
  if !ok then (false, s)
  else
    let header := overlay (bs.map some) junk
    let s := { s with lastFrag := if header &&& lastFragBit = 0 then false else true }
    if header = 0 then (false, s)
    else (true, { s with fbtbc := (header &&& ~~~lastFragBit).toNat })

/-- What goes down in the loop of `flexxdrrec_getbytes` when it opens fragments. -/
def RecStrm.openRank (s : RecStrm ρ ω) : Nat := if toUInt s.fbtbc ≠ 0 then 0 else if s.lastFrag then 1 else 2

/-- A header that is not zero has a length or is the last one. -/
theorem openRank_fragment {s s' : RecStrm ρ ω} (h : setInputFragment T s = (true, s')) : s'.openRank < 2 := by
  unfold setInputFragment at h
  rcases hg : getInputBytes T s.enter 4 with ⟨ok, bs, s₁⟩
  simp only [hg] at h
  cases ok with
  | false => cases h
  | true =>
    simp only [Bool.not_true, Bool.false_eq_true, if_false] at h
    split at h
    next => cases h
    next hz =>
      cases h
      generalize overlay (bs.map some) (s.locals 0) = header at hz
      have ht : toUInt (header &&& ~~~lastFragBit).toNat = header.toNat % 2 ^ 31 := by
        rw [show (header &&& ~~~lastFragBit).toNat = _ from toNat_and_not_topBit header, toUInt]
        omega
      unfold RecStrm.openRank
      dsimp only
      by_cases h0 : header.toNat % 2 ^ 31 = 0
      · have htop : ¬ header &&& lastFragBit = 0 := and_topBit_ne_zero hz h0
        rw [ht, if_neg (not_not.mpr h0), if_neg htop, if_pos rfl]
        exact Nat.one_lt_two
      · rw [ht, if_pos h0]
        exact Nat.zero_lt_two

/-- The round of `flexxdrrec_getbytes` that copies: the result, what was stored at `addr`, the bytes still wanted and
the stream. A cell is `none` where `addr` was moved on over a place without a store. -/
def getbytesCopy (s : RecStrm ρ ω) (len : Nat) : Bool × List (Option Byte) × Nat × RecStrm ρ ω :=
  let current := toUInt s.fbtbc
  let current := if len < current then len else current
  let (ok, bs, s) := getInputBytes T s (toInt current)
  if !ok then (false, bs.map some, len, s)
  else
    (true, bs.map some ++ List.replicate (current - bs.length) none, len - current,
      { s with fbtbc := s.fbtbc - current })

theorem getbytesCopy_lt {s s' : RecStrm ρ ω} {len len' : Nat} {cells : List (Option Byte)} (hl : len > 0)
    (hc : ¬ toUInt s.fbtbc = 0) (h : getbytesCopy T s len = (true, cells, len', s')) : len' < len := by
  unfold getbytesCopy at h
  generalize hn : (if len < toUInt s.fbtbc then len else toUInt s.fbtbc) = current at h
  rcases hg : getInputBytes T s (toInt current) with ⟨ok, bs, s₁⟩
  simp only [hn, hg] at h
  cases ok with
  | false => cases h
  | true =>
    cases h
    split at hn <;> omega

/-- The result and the cells stored at `addr`. -/
def flexxdrrecGetbytes (s : RecStrm ρ ω) (len : Nat) : Bool × List (Option Byte) × RecStrm ρ ω :=
  if len > 0 then
    if toUInt s.fbtbc = 0 then
      if s.lastFrag then (false, [], s)
      else
        match _h : setInputFragment T s with
        | (false, s') => (false, [], s')
        | (true, s') => flexxdrrecGetbytes s' len
    else
      match _h : getbytesCopy T s len with
      | (false, cells, _, s') => (false, cells, s')
      | (true, cells, len', s') =>
        let (ok, rest, s') := flexxdrrecGetbytes s' len'
        (ok, cells ++ rest, s')
  else (true, [], s)
termination_by (len, s.openRank)
decreasing_by
  · have hr : s.openRank = 2 := by
      unfold RecStrm.openRank
      rw [if_neg (not_not.mpr ‹_›), if_neg ‹_›]
    exact Prod.Lex.right _ (by rw [hr]; exact openRank_fragment T _h)
  · exact Prod.Lex.left _ _ (getbytesCopy_lt T ‹_› ‹_› _h)

section Getbytes

variable {T} {s s' : RecStrm ρ ω} {len len' : Nat} {cells : List (Option Byte)}

theorem recGetbytes_zero : flexxdrrecGetbytes T s 0 = (true, [], s) := by
  rw [flexxdrrecGetbytes, if_neg (Nat.lt_irrefl 0)]

theorem recGetbytes_last (hl : len > 0) (hc : toUInt s.fbtbc = 0) (hf : s.lastFrag = true) :
    flexxdrrecGetbytes T s len = (false, [], s) := by
  rw [flexxdrrecGetbytes, if_pos hl, if_pos hc, if_pos hf]

theorem recGetbytes_refused (hl : len > 0) (hc : toUInt s.fbtbc = 0) (hlast : ¬ s.lastFrag = true)
    (hf : setInputFragment T s = (false, s')) : flexxdrrecGetbytes T s len = (false, [], s') := by
  rw [flexxdrrecGetbytes, if_pos hl, if_pos hc, if_neg hlast]
  split
  next _ hf' =>
    rw [hf] at hf'
    cases hf'
    rfl
  next _ hf' =>
    rw [hf] at hf'
    cases hf'

theorem recGetbytes_open (hl : len > 0) (hc : toUInt s.fbtbc = 0) (hlast : ¬ s.lastFrag = true)
    (hf : setInputFragment T s = (true, s')) : flexxdrrecGetbytes T s len = flexxdrrecGetbytes T s' len := by
  rw [flexxdrrecGetbytes, if_pos hl, if_pos hc, if_neg hlast]
  split
  next _ hf' =>
    rw [hf] at hf'
    cases hf'
  next _ hf' =>
    rw [hf] at hf'
    cases hf'
    rfl

theorem recGetbytes_cut (hl : len > 0) (hc : ¬ toUInt s.fbtbc = 0)
    (hf : getbytesCopy T s len = (false, cells, len', s')) : flexxdrrecGetbytes T s len = (false, cells, s') := by
  rw [flexxdrrecGetbytes, if_pos hl, if_neg hc]
  split
  next _ _ _ hf' =>
    rw [hf] at hf'
    cases hf'
    rfl
  next _ _ _ hf' =>
    rw [hf] at hf'
    cases hf'

theorem recGetbytes_next (hl : len > 0) (hc : ¬ toUInt s.fbtbc = 0)
    (hf : getbytesCopy T s len = (true, cells, len', s')) :
    flexxdrrecGetbytes T s len =
      ((flexxdrrecGetbytes T s' len').1, cells ++ (flexxdrrecGetbytes T s' len').2.1,
        (flexxdrrecGetbytes T s' len').2.2) := by
  rw [flexxdrrecGetbytes, if_pos hl, if_neg hc]
  split
  next _ _ _ hf' =>
    rw [hf] at hf'
    cases hf'
  next _ _ _ hf' =>
    rw [hf] at hf'
    cases hf'
    rfl

end Getbytes

def flexxdrrecGetlong (s : RecStrm ρ ω) : Option ULong × RecStrm ρ ω :=
  if s.fbtbc ≥ 4 ∧ s.inBoundary - s.inFinger ≥ 4 then
    let w := overlay ((s.mem.load s.inFinger 4).map some) 0
    (some (w.signExtend 64), { s.take 4 with fbtbc := s.fbtbc - 4 })
  else
    let junk := s.locals 0
    let (ok, cells, s) := flexxdrrecGetbytes T s.enter 4
    if !ok then (none, s)
    else (some ((overlay cells junk).signExtend 64), s)

/-- At most `fuel` rounds of the loop of `flexxdrrec_skiprecord`; `none` when they do not reach its end. -/
def flexxdrrecSkiprecord (s : RecStrm ρ ω) : Nat → Option (Bool × RecStrm ρ ω)
  | 0 => none
  | fuel + 1 =>
    if s.fbtbc > 0 ∨ !s.lastFrag then
      let (ok, s) := skipInputBytes T s s.fbtbc
      if !ok then some (false, s)
      else
        let s := { s with fbtbc := 0 }
        if !s.lastFrag then
          let (ok, s) := setInputFragment T s
          if !ok then some (false, s)
          else flexxdrrecSkiprecord s fuel
        else flexxdrrecSkiprecord s fuel
    else some (true, { s with lastFrag := false })

section Skiprecord

variable {T} {s s' s'' : RecStrm ρ ω} {fuel : Nat}

theorem recSkiprecord_done (h : ¬ (s.fbtbc > 0 ∨ s.lastFrag = false)) :
    flexxdrrecSkiprecord T s (fuel + 1) = some (true, { s with lastFrag := false }) := by
  rw [flexxdrrecSkiprecord, if_neg (by rwa [Bool.not_eq_true'])]

theorem recSkiprecord_refused (h : s.fbtbc > 0 ∨ s.lastFrag = false) (hs : skipInputBytes T s s.fbtbc = (false, s')) :
    flexxdrrecSkiprecord T s (fuel + 1) = some (false, s') := by
  rw [flexxdrrecSkiprecord, if_pos (by rwa [Bool.not_eq_true']), hs]
  rfl

theorem recSkiprecord_last (h : s.fbtbc > 0 ∨ s.lastFrag = false) (hs : skipInputBytes T s s.fbtbc = (true, s'))
    (hl : s'.lastFrag = true) : flexxdrrecSkiprecord T s (fuel + 1) = flexxdrrecSkiprecord T { s' with fbtbc := 0 } fuel := by
  rw [flexxdrrecSkiprecord, if_pos (by rwa [Bool.not_eq_true']), hs]
  simp only [Bool.not_true, Bool.false_eq_true, if_false]
  exact if_neg (by rw [hl, Bool.not_true]; exact Bool.false_ne_true)

theorem recSkiprecord_closed (h : s.fbtbc > 0 ∨ s.lastFrag = false) (hs : skipInputBytes T s s.fbtbc = (true, s'))
    (hl : s'.lastFrag = false) (hf : setInputFragment T { s' with fbtbc := 0 } = (false, s'')) :
    flexxdrrecSkiprecord T s (fuel + 1) = some (false, s'') := by
  rw [flexxdrrecSkiprecord, if_pos (by rwa [Bool.not_eq_true']), hs]
  simp only [Bool.not_true, Bool.false_eq_true, if_false]
  rw [if_pos (by rw [hl, Bool.not_false]), hf]
  rfl

theorem recSkiprecord_open (h : s.fbtbc > 0 ∨ s.lastFrag = false) (hs : skipInputBytes T s s.fbtbc = (true, s'))
    (hl : s'.lastFrag = false) (hf : setInputFragment T { s' with fbtbc := 0 } = (true, s'')) :
    flexxdrrecSkiprecord T s (fuel + 1) = flexxdrrecSkiprecord T s'' fuel := by
  rw [flexxdrrecSkiprecord, if_pos (by rwa [Bool.not_eq_true']), hs]
  simp only [Bool.not_true, Bool.false_eq_true, if_false]
  rw [if_pos (by rw [hl, Bool.not_false]), hf]
  rfl

end Skiprecord

/-- A peer that sends words, one at each call, until it fails, and takes what it is given. -/
def wordPeer : Transport (List Word) Unit where
  readit
    | [], _ => ([], -1, [])
    | w :: ws, n => ((toBytes w).take n, min n 4, ws)
  length_readit r n := by
    cases r with
    | nil => exact Nat.zero_le n
    | cons w ws => exact List.length_take_le n (toBytes w)
  writeit _ bs := (bs.length, ())

end Cornflakes.Flexrpc

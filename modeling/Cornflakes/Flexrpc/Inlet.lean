import Cornflakes.Flexrpc.Sides

/-!
# The receiving side of a record stream

An `Inlet` is what the receiving functions of `flexxdr_rec.c` make of a record stream: four cells, of which the last few
are unread, the count of the fragment, and the reader. They work on it without addresses (`Inlet.getbytes`,
`Inlet.getlong`, `Inlet.skiprecord`), and the functions of the source do the same (`call_inlet`): what they return and
leave depends on nothing else of the stream.
-/

set_option autoImplicit false

namespace Cornflakes.Flexrpc

open Wire

variable {ρ ω : Type}

/-- The receiving side: the cells at `in_base` and how many of them are unread, the bytes of the fragment to be
consumed, whether it is the last one, the reader, and what the stack holds. -/
@[ext] structure Inlet (ρ : Type) where
  cells : List Byte
  unread : Nat
  fbtbc : Nat
  lastFrag : Bool
  reader : ρ
  locals : Nat → Word

namespace Inlet

variable (T : Transport ρ ω) (v : Inlet ρ)

/-- The unread cells. -/
def window : List Byte := v.cells.drop (4 - v.unread)

/-- Have unread cells: when there are none, call `readit` and take all four to be new. -/
def refill : Bool × Inlet ρ :=
  if v.unread = 0 then
    let (bs, len, r) := T.readit v.reader 4
    let v := { v with cells := bs ++ v.cells.drop bs.length, reader := r }
    if len = -1 then (false, v) else (true, { v with unread := 4 })
  else (true, v)

/-- Consume `n` cells of the window. -/
def drop (n : Nat) : Inlet ρ := { v with unread := v.unread - n }

/-- One copy from the window, of `len` bytes or of what is there. -/
def getInput (len : Nat) : Bool × List Byte × Inlet ρ :=
  if len = 0 then (true, [], v)
  else
    match v.refill T with
    | (false, v') => (false, [], v')
    | (true, v') => (true, v'.window.take len, v'.drop len)

theorem unread_refill {v v' : Inlet ρ} (h : v.refill T = (true, v')) : v'.unread ≠ 0 := by
  unfold refill at h
  split at h
  next =>
    simp only at h
    split at h
    next => cases h
    next =>
      cases h
      exact Nat.succ_ne_zero 3
  next hn =>
    cases h
    exact hn

/-- Consume `cnt` cells, refilling the window as often as it takes. -/
def skip (v : Inlet ρ) (cnt : Nat) : Bool × Inlet ρ :=
  if cnt = 0 then (true, v)
  else
    match _h : v.refill T with
    | (false, v') => (false, v')
    | (true, v') => skip (v'.drop cnt) (cnt - v'.unread)
termination_by cnt
decreasing_by
  have hu := unread_refill T _h
  omega

/-- Read a header into a local and start its fragment. -/
def openFragment : Bool × Inlet ρ :=
  let junk := v.locals 0
  let v := { v with locals := fun n => v.locals (n + 1) }
  match v.getInput T 4 with
  | (false, _, v') => (false, v')
  | (true, bs, v') =>
    let header := overlay (bs.map some) junk
    let v' := { v' with lastFrag := if header &&& lastFragBit = 0 then false else true }
    if header = 0 then (false, v')
    else (true, { v' with fbtbc := (header &&& ~~~lastFragBit).toNat })

/-- How far the inlet is from a fragment that has bytes. -/
def openRank (v : Inlet ρ) : Nat := if v.fbtbc ≠ 0 then 0 else if v.lastFrag then 1 else 2

theorem openRank_open {v v' : Inlet ρ} (h : v.openFragment T = (true, v')) : v'.openRank < 2 := by
  unfold openFragment at h
  dsimp only at h
  split at h
  next => cases h
  next v₁ bs v₂ _ =>
    split at h
    next => cases h
    next hz =>
      cases h
      generalize overlay (bs.map some) (v.locals 0) = header at hz
      have hl : (header &&& ~~~lastFragBit).toNat = header.toNat % 2 ^ 31 := toNat_and_not_topBit header
      unfold openRank
      dsimp only
      by_cases h0 : header.toNat % 2 ^ 31 = 0
      · have htop : ¬ header &&& lastFragBit = 0 := and_topBit_ne_zero hz h0
        rw [hl, if_neg (not_not.mpr h0), if_neg htop, if_pos rfl]
        exact Nat.one_lt_two
      · rw [hl, if_pos h0]
        exact Nat.zero_lt_two

/-- Bytes of the record, each part of them by one copy. -/
def getbytes (v : Inlet ρ) (len : Nat) : Bool × List (Option Byte) × Inlet ρ :=
  if len = 0 then (true, [], v)
  else if v.fbtbc = 0 then
    if v.lastFrag then (false, [], v)
    else
      match _h : v.openFragment T with
      | (false, v') => (false, [], v')
      | (true, v') => getbytes v' len
  else
    match v.getInput T (min len v.fbtbc) with
    | (false, bs, v') => (false, bs.map some, v')
    | (true, bs, v') =>
      let r := getbytes { v' with fbtbc := v.fbtbc - min len v.fbtbc } (len - min len v.fbtbc)
      (r.1, bs.map some ++ List.replicate (min len v.fbtbc - bs.length) none ++ r.2.1, r.2.2)
termination_by (len, v.openRank)
decreasing_by
  · have hr : v.openRank = 2 := by
      unfold openRank
      rw [if_neg (not_not.mpr ‹_›), if_neg ‹_›]
    exact Prod.Lex.right _ (by rw [hr]; exact openRank_open T _h)
  · exact Prod.Lex.left _ _ (by omega)

section Equations

variable {T} {v v' : Inlet ρ} {cnt len : Nat} {bs : List Byte}

theorem skip_zero : v.skip T 0 = (true, v) := by
  rw [skip, if_pos rfl]

theorem skip_refused (h : cnt ≠ 0) (hf : v.refill T = (false, v')) : v.skip T cnt = (false, v') := by
  rw [skip, if_neg h]
  split
  next _ hf' =>
    rw [hf] at hf'
    cases hf'
    rfl
  next _ hf' =>
    rw [hf] at hf'
    cases hf'

theorem skip_next (h : cnt ≠ 0) (hf : v.refill T = (true, v')) :
    v.skip T cnt = (v'.drop cnt).skip T (cnt - v'.unread) := by
  rw [skip, if_neg h]
  split
  next _ hf' =>
    rw [hf] at hf'
    cases hf'
  next _ hf' =>
    rw [hf] at hf'
    cases hf'
    rfl

theorem refill_unread (h : v.unread ≠ 0) : v.refill T = (true, v) := if_neg h

theorem skip_refill (h : cnt ≠ 0) (hf : v.refill T = (true, v')) : v.skip T cnt = v'.skip T cnt := by
  rw [skip_next h hf, skip_next h (refill_unread (unread_refill T hf))]

theorem getbytes_zero : v.getbytes T 0 = (true, [], v) := by
  rw [getbytes, if_pos rfl]

theorem getbytes_last (hl : len ≠ 0) (hc : v.fbtbc = 0) (hlast : v.lastFrag = true) :
    v.getbytes T len = (false, [], v) := by
  rw [getbytes, if_neg hl, if_pos hc, if_pos hlast]

theorem getbytes_refused (hl : len ≠ 0) (hc : v.fbtbc = 0) (hlast : ¬ v.lastFrag = true)
    (hf : v.openFragment T = (false, v')) : v.getbytes T len = (false, [], v') := by
  rw [getbytes, if_neg hl, if_pos hc, if_neg hlast]
  split
  next _ hf' =>
    rw [hf] at hf'
    cases hf'
    rfl
  next _ hf' =>
    rw [hf] at hf'
    cases hf'

theorem getbytes_open (hl : len ≠ 0) (hc : v.fbtbc = 0) (hlast : ¬ v.lastFrag = true)
    (hf : v.openFragment T = (true, v')) : v.getbytes T len = v'.getbytes T len := by
  rw [getbytes, if_neg hl, if_pos hc, if_neg hlast]
  split
  next _ hf' =>
    rw [hf] at hf'
    cases hf'
  next _ hf' =>
    rw [hf] at hf'
    cases hf'
    rfl

theorem getbytes_cut (hl : len ≠ 0) (hc : v.fbtbc ≠ 0) (hf : v.getInput T (min len v.fbtbc) = (false, bs, v')) :
    v.getbytes T len = (false, bs.map some, v') := by
  rw [getbytes, if_neg hl, if_neg hc, hf]

theorem getbytes_next (hl : len ≠ 0) (hc : v.fbtbc ≠ 0) (hf : v.getInput T (min len v.fbtbc) = (true, bs, v')) :
    v.getbytes T len =
      let r := { v' with fbtbc := v.fbtbc - min len v.fbtbc }.getbytes T (len - min len v.fbtbc)
      (r.1, bs.map some ++ List.replicate (min len v.fbtbc - bs.length) none ++ r.2.1, r.2.2) := by
  rw [getbytes, if_neg hl, if_neg hc, hf]

end Equations

/-- A word of the record. -/
def getlong : Option ULong × Inlet ρ :=
  if v.fbtbc ≥ 4 ∧ v.unread ≥ 4 then
    let w := overlay ((v.window.take 4).map some) 0
    (some (w.signExtend 64), { v.drop 4 with fbtbc := v.fbtbc - 4 })
  else
    let junk := v.locals 0
    let r := getbytes T { v with locals := fun n => v.locals (n + 1) } 4
    if r.1 then (some ((overlay r.2.1 junk).signExtend 64), r.2.2) else (none, r.2.2)

/-- A word that is not taken at once. -/
theorem getlong_slow {T : Transport ρ ω} {v v' : Inlet ρ} (h : ¬ (v.fbtbc ≥ 4 ∧ v.unread ≥ 4)) {ok : Bool}
    {cells : List (Option Byte)} (hg : { v with locals := fun n => v.locals (n + 1) }.getbytes T 4 = (ok, cells, v')) :
    v.getlong T = (if ok then some ((overlay cells (v.locals 0)).signExtend 64) else none, v') := by
  rw [getlong, if_neg h, hg]
  cases ok with
  | true => rfl
  | false => rfl

/-- Skip to the end of the record, in at most `fuel` rounds. -/
def skiprecord (v : Inlet ρ) : Nat → Option (Bool × Inlet ρ)
  | 0 => none
  | fuel + 1 =>
    if v.fbtbc > 0 ∨ v.lastFrag = false then
      match v.skip T v.fbtbc with
      | (false, v') => some (false, v')
      | (true, v') =>
        let v' := { v' with fbtbc := 0 }
        if v'.lastFrag then skiprecord v' fuel
        else
          match v'.openFragment T with
          | (false, v'') => some (false, v'')
          | (true, v'') => skiprecord v'' fuel
    else some (true, { v with lastFrag := false })

section Equations

variable {T} {v v' v'' : Inlet ρ} {fuel : Nat}

theorem skiprecord_done (h : ¬ (v.fbtbc > 0 ∨ v.lastFrag = false)) :
    v.skiprecord T (fuel + 1) = some (true, { v with lastFrag := false }) := by
  rw [skiprecord, if_neg h]

theorem skiprecord_refused (h : v.fbtbc > 0 ∨ v.lastFrag = false) (hs : v.skip T v.fbtbc = (false, v')) :
    v.skiprecord T (fuel + 1) = some (false, v') := by
  rw [skiprecord, if_pos h, hs]

theorem skiprecord_last (h : v.fbtbc > 0 ∨ v.lastFrag = false) (hs : v.skip T v.fbtbc = (true, v'))
    (hl : v'.lastFrag = true) : v.skiprecord T (fuel + 1) = { v' with fbtbc := 0 }.skiprecord T fuel := by
  rw [skiprecord, if_pos h, hs]
  exact if_pos hl

theorem skiprecord_closed (h : v.fbtbc > 0 ∨ v.lastFrag = false) (hs : v.skip T v.fbtbc = (true, v'))
    (hl : v'.lastFrag = false) (hf : { v' with fbtbc := 0 }.openFragment T = (false, v'')) :
    v.skiprecord T (fuel + 1) = some (false, v'') := by
  rw [skiprecord, if_pos h, hs]
  refine (if_neg (by rw [hl]; exact Bool.false_ne_true)).trans ?_
  rw [hf]

theorem skiprecord_open (h : v.fbtbc > 0 ∨ v.lastFrag = false) (hs : v.skip T v.fbtbc = (true, v'))
    (hl : v'.lastFrag = false) (hf : { v' with fbtbc := 0 }.openFragment T = (true, v'')) :
    v.skiprecord T (fuel + 1) = v''.skiprecord T fuel := by
  rw [skiprecord, if_pos h, hs]
  refine (if_neg (by rw [hl]; exact Bool.false_ne_true)).trans ?_
  rw [hf]

end Equations

end Inlet

/-! ## The receiving functions of the source -/

/-- The receiving side of a stream. -/
def RecStrm.inlet (s : RecStrm ρ ω) : Inlet ρ :=
  ⟨s.mem.load s.inBase 4, (s.inBoundary - s.inFinger).toNat, s.fbtbc.toNat, s.lastFrag, s.reader, s.locals⟩

/-- The window is empty or ends with the cells that `fill_input_buf` asks for. -/
def Placed (s : RecStrm ρ ω) : Prop := RecInv s ∧ (s.inFinger = s.inBoundary ∨ s.inBoundary = s.inBase + 4)

namespace Placed

variable {s s' : RecStrm ρ ω} {T : Transport ρ ω} {ok : Bool}

theorem create (sendsize recvsize : Word) (buf : Int) (mem : Heap Byte) (reader : ρ) (writer : ω)
    (locals : Nat → Word) : Placed (flexxdrrecCreate sendsize recvsize buf mem reader writer locals) :=
  ⟨RecInv.create sendsize recvsize buf mem reader writer locals, Or.inl rfl⟩

theorem unread_eq (h : Placed s) : (s.inlet.unread : Int) = s.window := by
  have hw : s.inFinger ≤ s.inBoundary := h.1.1.window
  rw [h.1.window_eq]
  show ((s.inBoundary - s.inFinger).toNat : Int) = _
  omega

theorem unread_eq_zero_iff (h : Placed s) : s.inlet.unread = 0 ↔ s.window = 0 := by
  rw [← h.unread_eq]
  omega

theorem fbtbc_eq (h : Placed s) : toUInt s.fbtbc = s.inlet.fbtbc := by
  have h₀ : 0 ≤ s.fbtbc := h.1.1.fbtbc_nonneg
  have h₁ : s.fbtbc < 2 ^ 31 := h.1.1.fbtbc_lt
  show toUInt s.fbtbc = s.fbtbc.toNat
  unfold toUInt
  omega

theorem fill (h : Placed s) (hw : s.window = 0) (hf : fillInputBuf T s = (ok, s')) :
    s.inlet.refill T = (ok, s'.inlet) ∧ Placed s' := by
  have hi := h.1.fill T hf
  have hu : s.inlet.unread = 0 := h.unread_eq_zero_iff.mpr hw
  unfold Inlet.refill
  rw [if_pos hu]
  unfold fillInputBuf at hf
  have hl := T.length_readit s.reader 4
  rcases hr : T.readit s.reader 4 with ⟨bs, len, r⟩
  have hr' : T.readit s.inlet.reader 4 = (bs, len, r) := hr
  simp only [hr] at hf hl
  simp only [hr']
  have hc : bs ++ s.inlet.cells.drop bs.length = (s.mem.store s.inBase bs).load s.inBase 4 :=
    (Heap.load_store_front s.mem s.inBase hl).symm
  split at hf
  next hneg =>
    cases hf
    rw [if_pos hneg, hc]
    exact ⟨rfl, hi, h.2⟩
  next hneg =>
    cases hf
    rw [if_neg hneg, hc]
    refine ⟨?_, hi, Or.inr rfl⟩
    simp only [RecStrm.inlet, show s.inBase + 4 - s.inBase = 4 by omega]
    rfl

/-- The unread cells are those from `in_finger` to `in_boundary`. -/
theorem window_load (h : Placed s) : s.inlet.window = s.mem.load s.inFinger (s.inBoundary - s.inFinger).toNat := by
  have hw : s.inFinger ≤ s.inBoundary := h.1.1.window
  have ha : s.inBoundary ≤ s.inFinger + 4 := h.1.1.ahead
  have hu : s.inlet.unread = (s.inBoundary - s.inFinger).toNat := rfl
  have hd : s.inlet.window = _ := Heap.drop_load s.mem s.inBase (Nat.sub_le 4 s.inlet.unread)
  rw [hd]
  rcases h.2 with he | he
  · rw [hu, show (s.inBoundary - s.inFinger).toNat = 0 by omega]
    rfl
  · congr 1
    · omega
    · omega

/-- Consuming `len` cells, or those that are there. -/
theorem take (h : Placed s) {len : Int} (hl : 0 ≤ len) :
    (s.take (if len < s.window then len else s.window)).inlet = s.inlet.drop len.toNat ∧
      Placed (s.take (if len < s.window then len else s.window)) := by
  have hwin := h.1.window_eq
  have hw : s.inFinger ≤ s.inBoundary := h.1.1.window
  generalize hn : (if len < s.window then len else s.window) = n
  have hn0 : 0 ≤ n := by split at hn <;> omega
  have hnw : n ≤ s.window := by split at hn <;> omega
  refine ⟨?_, h.1.take hn0 hnw, ?_⟩
  · show Inlet.mk _ (s.inBoundary - (s.inFinger + n)).toNat _ _ _ _ =
      Inlet.mk _ ((s.inBoundary - s.inFinger).toNat - len.toNat) _ _ _ _
    congr 1
    split at hn <;> omega
  · show s.inFinger + n = s.inBoundary ∨ s.inBoundary = s.inBase + 4
    rcases h.2 with he | he
    · exact Or.inl (by omega)
    · exact Or.inr he

theorem copy (h : Placed s) {len : Int} {bs : List Byte} (hl : len > 0) (hc : inputCopy s len = (ok, bs, s')) :
    ok = true ∧ bs = s.inlet.window.take len.toNat ∧ s'.inlet = s.inlet.drop len.toNat ∧ Placed s' := by
  have hwin := h.1.window_eq
  have hw : s.inFinger ≤ s.inBoundary := h.1.1.window
  have ha : s.inBoundary ≤ s.inFinger + 4 := h.1.1.ahead
  have hs : toSize (if len < s.window then len else s.window) = min len.toNat (s.inBoundary - s.inFinger).toNat := by
    unfold toSize
    split <;> omega
  obtain ⟨hd, ht⟩ := h.take (Int.le_of_lt hl)
  cases hc
  refine ⟨rfl, ?_, hd, ht⟩
  rw [h.window_load, hs, List.take_eq_take_min, Heap.length_load, Heap.take_load _ _ (Nat.min_le_right _ _)]

theorem getInput (h : Placed s) {len : Nat} {bs : List Byte} (hg : getInputBytes T s len = (ok, bs, s')) :
    s.inlet.getInput T len = (ok, bs, s'.inlet) ∧ Placed s' := by
  unfold Inlet.getInput
  unfold getInputBytes at hg
  by_cases hl : len = 0
  · rw [if_neg (by omega)] at hg
    cases hg
    rw [if_pos hl]
    exact ⟨rfl, h⟩
  · have hl' : (len : Int) > 0 := by omega
    rw [if_pos hl'] at hg
    rw [if_neg hl]
    by_cases hw : s.window = 0
    · rcases hf : fillInputBuf T s with ⟨ok₁, s₁⟩
      obtain ⟨hr, h₁⟩ := h.fill hw hf
      simp only [if_pos hw, hf] at hg
      cases ok₁ with
      | false =>
        cases hg
        simp only [hr]
        exact ⟨trivial, h₁⟩
      | true =>
        obtain ⟨rfl, rfl, hd, h₂⟩ := h₁.copy hl' hg
        simp only [hr, hd, Int.toNat_natCast]
        exact ⟨trivial, h₂⟩
    · rw [if_neg hw] at hg
      obtain ⟨rfl, rfl, hd, h₂⟩ := h.copy hl' hg
      have hr : s.inlet.refill T = (true, s.inlet) := if_neg fun hu => hw (h.unread_eq_zero_iff.mp hu)
      simp only [hr, hd, Int.toNat_natCast]
      exact ⟨trivial, h₂⟩

theorem openFragment (h : Placed s) (hg : setInputFragment T s = (ok, s')) :
    s.inlet.openFragment T = (ok, s'.inlet) ∧ Placed s' := by
  have hi := (RecInv.takeInv T).setInputFragment h.1 hg
  unfold setInputFragment at hg
  rcases hb : getInputBytes T s.enter 4 with ⟨ok₁, bs, s₁⟩
  have hb' : getInputBytes T s.enter (4 : Nat) = (ok₁, bs, s₁) := hb
  obtain ⟨hg₁, h₁⟩ := getInput (show Placed s.enter from h) hb'
  have he : s.enter.inlet = { s.inlet with locals := fun n => s.inlet.locals (n + 1) } := rfl
  rw [he] at hg₁
  simp only [hb] at hg
  unfold Inlet.openFragment
  simp only [hg₁]
  cases ok₁ with
  | false =>
    cases hg
    exact ⟨rfl, h₁⟩
  | true =>
    have hloc : s.inlet.locals 0 = s.locals 0 := rfl
    simp only [Bool.not_true, Bool.false_eq_true, if_false] at hg
    simp only [hloc]
    split at hg
    next hz =>
      cases hg
      rw [if_pos hz]
      exact ⟨rfl, h₁⟩
    next hz =>
      cases hg
      rw [if_neg hz]
      exact ⟨rfl, hi, h₁.2⟩

/-- One copy of `flexxdrrec_getbytes`. -/
theorem getCopy (h : Placed s) {len len' : Nat} {cells : List (Option Byte)}
    (hg : getbytesCopy T s len = (ok, cells, len', s')) : Placed s' ∧
    ∃ bs v, s.inlet.getInput T (min len s.inlet.fbtbc) = (ok, bs, v) ∧
      (ok = false → cells = bs.map some ∧ s'.inlet = v) ∧
      (ok = true → cells = bs.map some ++ List.replicate (min len s.inlet.fbtbc - bs.length) none ∧
        len' = len - min len s.inlet.fbtbc ∧
        s'.inlet = { v with fbtbc := s.inlet.fbtbc - min len s.inlet.fbtbc }) := by
  have hi := (RecInv.takeInv T).getbytesCopy h.1 hg
  have hf := h.fbtbc_eq
  have h₀ : 0 ≤ s.fbtbc := h.1.1.fbtbc_nonneg
  have h₁ : s.fbtbc < 2 ^ 31 := h.1.1.fbtbc_lt
  have hfb : s.inlet.fbtbc = s.fbtbc.toNat := rfl
  unfold getbytesCopy at hg
  have hn : (if len < toUInt s.fbtbc then len else toUInt s.fbtbc) = min len s.inlet.fbtbc := by
    rw [hf]
    split <;> omega
  have hc : toInt (min len s.inlet.fbtbc : Nat) = (min len s.inlet.fbtbc : Nat) := by
    unfold toInt
    omega
  rcases hb : getInputBytes T s (min len s.inlet.fbtbc : Nat) with ⟨ok₁, bs, s₁⟩
  obtain ⟨hg₁, h₂⟩ := h.getInput hb
  have hb₁ := getInputBytes_fbtbc hb
  simp only [hn, hc, hb] at hg
  cases ok₁ with
  | false =>
    cases hg
    exact ⟨h₂, bs, _, hg₁, fun _ => ⟨rfl, rfl⟩, (fun he => by cases he)⟩
  | true =>
    cases hg
    refine ⟨⟨hi, h₂.2⟩, bs, _, hg₁, (fun he => by cases he), fun _ => ⟨rfl, rfl, ?_⟩⟩
    show Inlet.mk _ _ (s₁.fbtbc - (min len s.inlet.fbtbc : Nat)).toNat _ _ _ = _
    rw [hb₁]
    congr 1
    omega

theorem getbytes (h : Placed s) (len : Nat) :
    s.inlet.getbytes T len = ((flexxdrrecGetbytes T s len).1, (flexxdrrecGetbytes T s len).2.1,
      (flexxdrrecGetbytes T s len).2.2.inlet) ∧ Placed (flexxdrrecGetbytes T s len).2.2 := by
  induction s, len using flexxdrrecGetbytes.induct T with
  | case1 s len hl hc hlast =>
    rw [recGetbytes_last hl hc hlast, Inlet.getbytes_last (by omega) (by rw [← h.fbtbc_eq, hc]) hlast]
    exact ⟨rfl, h⟩
  | case2 s len hl hc hlast s' hf =>
    obtain ⟨ho, h₁⟩ := h.openFragment hf
    rw [recGetbytes_refused hl hc hlast hf, Inlet.getbytes_refused (by omega) (by rw [← h.fbtbc_eq, hc]) hlast ho]
    exact ⟨rfl, h₁⟩
  | case3 s len hl hc hlast s' hf ih =>
    obtain ⟨ho, h₁⟩ := h.openFragment hf
    rw [recGetbytes_open hl hc hlast hf, Inlet.getbytes_open (by omega) (by rw [← h.fbtbc_eq, hc]) hlast ho]
    exact ih h₁
  | case4 s len hl hc cells len' s' hf =>
    obtain ⟨h₁, bs, v, hg, hs, -⟩ := h.getCopy hf
    obtain ⟨rfl, rfl⟩ := hs rfl
    rw [recGetbytes_cut hl hc hf, Inlet.getbytes_cut (by omega) (by rw [← h.fbtbc_eq]; exact hc) hg]
    exact ⟨rfl, h₁⟩
  | case5 s len hl hc cells len' s' hf _ _ _ _ ih =>
    obtain ⟨h₁, bs, v, hg, -, hs⟩ := h.getCopy hf
    obtain ⟨rfl, rfl, hv⟩ := hs rfl
    obtain ⟨hi, h₂⟩ := ih h₁
    rw [recGetbytes_next hl hc hf, Inlet.getbytes_next (by omega) (by rw [← h.fbtbc_eq]; exact hc) hg, ← hv, hi]
    exact ⟨rfl, h₂⟩
  | case6 s len hl =>
    obtain rfl : len = 0 := by omega
    rw [recGetbytes_zero, Inlet.getbytes_zero]
    exact ⟨rfl, h⟩

theorem getlong (h : Placed s) :
    s.inlet.getlong T = ((flexxdrrecGetlong T s).1, (flexxdrrecGetlong T s).2.inlet) ∧
      Placed (flexxdrrecGetlong T s).2 := by
  have hi := (RecInv.takeInv T).getlong h.1
  have h₀ : 0 ≤ s.fbtbc := h.1.1.fbtbc_nonneg
  have hw : s.inFinger ≤ s.inBoundary := h.1.1.window
  have hu : s.inlet.unread = (s.inBoundary - s.inFinger).toNat := rfl
  have hfb : s.inlet.fbtbc = s.fbtbc.toNat := rfl
  unfold Inlet.getlong
  unfold flexxdrrecGetlong at hi ⊢
  by_cases hg : s.fbtbc ≥ 4 ∧ s.inBoundary - s.inFinger ≥ 4
  · have hg' : s.inlet.fbtbc ≥ 4 ∧ s.inlet.unread ≥ 4 := by omega
    rw [if_pos hg] at hi ⊢
    rw [if_pos hg']
    have hl : s.inlet.window.take 4 = s.mem.load s.inFinger 4 := by
      rw [h.window_load, Heap.take_load _ _ (by omega)]
    rw [hl]
    refine ⟨?_, hi, ?_⟩
    · refine Prod.ext rfl ?_
      show Inlet.mk _ ((s.inBoundary - s.inFinger).toNat - 4) (s.fbtbc.toNat - 4) _ _ _ =
        Inlet.mk _ (s.inBoundary - (s.inFinger + 4)).toNat (s.fbtbc - 4).toNat _ _ _
      congr 1 <;> omega
    · show s.inFinger + 4 = s.inBoundary ∨ s.inBoundary = s.inBase + 4
      rcases h.2 with he | he
      · exact Or.inl (by omega)
      · exact Or.inr he
  · have hg' : ¬ (s.inlet.fbtbc ≥ 4 ∧ s.inlet.unread ≥ 4) := by omega
    rw [if_neg hg, if_neg hg']
    have hb := getbytes (T := T) (show Placed s.enter from h) 4
    have he : s.enter.inlet = { s.inlet with locals := fun n => s.inlet.locals (n + 1) } := rfl
    rw [he] at hb
    rcases hr : flexxdrrecGetbytes T s.enter 4 with ⟨ok, cells, s'⟩
    rw [hr] at hb
    simp only [hb.1]
    cases ok with
    | false => exact ⟨rfl, hb.2⟩
    | true => exact ⟨rfl, hb.2⟩

theorem skip (h : Placed s) (cnt : Int) :
    s.inlet.skip T cnt.toNat = ((skipInputBytes T s cnt).1, (skipInputBytes T s cnt).2.inlet) ∧
      Placed (skipInputBytes T s cnt).2 := by
  induction s, cnt using skipInputBytes.induct T with
  | case1 s cnt hc hw s' hf =>
    obtain ⟨hr, h₁⟩ := h.fill hw hf
    rw [skipInput_refused hc hw hf, Inlet.skip_refused (by omega) hr]
    exact ⟨rfl, h₁⟩
  | case2 s cnt hc hw s' hf ih =>
    obtain ⟨hr, h₁⟩ := h.fill hw hf
    rw [skipInput_refill hc hw hf, Inlet.skip_refill (by omega) hr]
    exact ih h₁
  | case3 s cnt hc hw s' cnt' hf ih =>
    have hu := h.unread_eq
    have hr := Inlet.refill_unread (T := T) fun h0 => hw (h.unread_eq_zero_iff.mp h0)
    obtain ⟨hd, h₁⟩ := h.take (Int.le_of_lt hc)
    rw [skipInput_next hc hw hf, Inlet.skip_next (by omega) hr]
    cases hf
    have hn : cnt.toNat - s.inlet.unread = (cnt - if cnt < s.window then cnt else s.window).toNat := by
      split <;> omega
    rw [← hd, hn]
    exact ih h₁
  | case4 s cnt hc =>
    rw [skipInput_done hc, show cnt.toNat = 0 by omega, Inlet.skip_zero]
    exact ⟨rfl, h⟩

theorem skiprecord (h : Placed s) (fuel : Nat) :
    s.inlet.skiprecord T fuel = (flexxdrrecSkiprecord T s fuel).map (fun r => (r.1, r.2.inlet)) ∧
      ∀ r, flexxdrrecSkiprecord T s fuel = some r → Placed r.2 := by
  induction fuel generalizing s with
  | zero => exact ⟨rfl, fun r hr => by cases hr⟩
  | succ fuel ih =>
    have hfb : s.inlet.fbtbc = s.fbtbc.toNat := rfl
    have hl : s.inlet.lastFrag = s.lastFrag := rfl
    by_cases hg : s.fbtbc > 0 ∨ s.lastFrag = false
    · have hg' : s.inlet.fbtbc > 0 ∨ s.inlet.lastFrag = false := by
        rw [hl, hfb]
        exact hg.imp_left (by omega)
      obtain ⟨hs, h₁⟩ := h.skip (T := T) s.fbtbc
      rcases hr : skipInputBytes T s s.fbtbc with ⟨ok, s₁⟩
      rw [hr, ← hfb] at hs
      rw [hr] at h₁
      have h₂ : Placed { s₁ with fbtbc := 0 } := ⟨h₁.1.setFbtbc (Int.le_refl 0) (by omega), h₁.2⟩
      cases ok with
      | false =>
        rw [recSkiprecord_refused hg hr, Inlet.skiprecord_refused hg' hs]
        exact ⟨rfl, fun r he => by cases he; exact h₁⟩
      | true =>
        cases hlast : s₁.lastFrag with
        | true =>
          rw [recSkiprecord_last hg hr hlast, Inlet.skiprecord_last hg' hs hlast]
          exact ih h₂
        | false =>
          rcases hf : setInputFragment T { s₁ with fbtbc := 0 } with ⟨ok₂, s₂⟩
          obtain ⟨ho, h₃⟩ := h₂.openFragment hf
          cases ok₂ with
          | false =>
            rw [recSkiprecord_closed hg hr hlast hf, Inlet.skiprecord_closed hg' hs hlast ho]
            exact ⟨rfl, fun r he => by cases he; exact h₃⟩
          | true =>
            rw [recSkiprecord_open hg hr hlast hf, Inlet.skiprecord_open hg' hs hlast ho]
            exact ih h₃
    · have hg' : ¬ (s.inlet.fbtbc > 0 ∨ s.inlet.lastFrag = false) := by
        rw [hl, hfb]
        exact fun hn => hg (hn.imp_left (by omega))
      rw [recSkiprecord_done hg, Inlet.skiprecord_done hg']
      exact ⟨rfl, fun r he => by cases he; exact h⟩

end Placed

/-! ## Calls -/

/-- The call on the receiving side alone. -/
def Inlet.call (fuel : Nat) (T : Transport ρ ω) (v : Inlet ρ) : TakeOp → Option (RecResult × Inlet ρ)
  | .getlong => some (.long (v.getlong T).1, (v.getlong T).2)
  | .getbytes len =>
    some (.bytes (v.getbytes T len.toNat).1 (v.getbytes T len.toNat).2.1, (v.getbytes T len.toNat).2.2)
  | .skiprecord => (v.skiprecord T fuel).map fun r => (.bool r.1, r.2)

/-- A receiving call is a call on the receiving side. -/
theorem call_inlet {T : Transport ρ ω} {s : RecStrm ρ ω} (h : Placed s) (fuel : Nat) (o : TakeOp) :
    s.inlet.call fuel T o = (o.op.call fuel T s).map (fun r => (r.1, r.2.inlet)) ∧
      ∀ r, o.op.call fuel T s = some r → Placed r.2 := by
  cases o with
  | getlong =>
    obtain ⟨hg, h₁⟩ := h.getlong (T := T)
    refine ⟨?_, fun r hr => by cases hr; exact h₁⟩
    rw [Inlet.call, hg]
    rfl
  | getbytes len =>
    obtain ⟨hg, h₁⟩ := h.getbytes (T := T) len.toNat
    refine ⟨?_, fun r hr => by cases hr; exact h₁⟩
    rw [Inlet.call, hg]
    rfl
  | skiprecord =>
    obtain ⟨hg, h₁⟩ := h.skiprecord (T := T) fuel
    refine ⟨?_, fun r hr => ?_⟩
    · rw [Inlet.call, hg, TakeOp.op, RecOp.call, Option.map_map, Option.map_map]
      rfl
    · obtain ⟨r₁, hr₁, rfl⟩ := Option.map_eq_some_iff.mp hr
      exact h₁ r₁ hr₁

def takeStep (fuel : Nat) (T : Transport ρ ω) (s : RecStrm ρ ω) (o : TakeOp) : Option (RecResult × RecStrm ρ ω) :=
  o.op.call fuel T s

/-- What receiving calls give depends on the receiving side only. -/
theorem Placed.outputs_inlet {s : RecStrm ρ ω} (h : Placed s) (T : Transport ρ ω) (fuel : Nat) (os : List TakeOp) :
    outputs (Inlet.call fuel T) s.inlet os = (outputs (takeStep fuel T) s os).map fun r => (r.1, r.2.inlet) := by
  have hc (s : RecStrm ρ ω) (o : TakeOp) (hs : Placed s) :
      s.inlet.call fuel T o = (takeStep fuel T s o).map (fun r => (r.1, r.2.inlet)) ∧
        ∀ r, takeStep fuel T s o = some r → Placed r.2 := call_inlet hs fuel o
  exact outputs_map hc h os

/-- The results of the calls, from the receiving side. -/
theorem Placed.results_inlet {s : RecStrm ρ ω} (h : Placed s) (T : Transport ρ ω) (fuel : Nat) (os : List TakeOp) :
    (outputs (takeStep fuel T) s os).map Prod.fst = (outputs (Inlet.call fuel T) s.inlet os).map Prod.fst := by
  rw [h.outputs_inlet, Option.map_map]
  rfl

section Create

variable (T : Transport ρ ω) (sendsize recvsize : Word) (buf : Int) (mem : Heap Byte) (reader : ρ) (writer : ω)
  (locals : Nat → Word)

/-- A new stream has read nothing. -/
theorem create_unread : (flexxdrrecCreate sendsize recvsize buf mem reader writer locals).inlet.unread = 0 := by
  simp [RecStrm.inlet, flexxdrrecCreate]

theorem create_window : (flexxdrrecCreate sendsize recvsize buf mem reader writer locals).inlet.window = [] := by
  rw [Inlet.window, create_unread]
  exact List.drop_of_length_le (Nat.le_of_eq (Heap.length_load _ _ 4))

/-- The first `flexxdrrec_skiprecord` only opens the first record. -/
theorem create_opened (fuel : Nat) :
    ∃ s, flexxdrrecSkiprecord T (flexxdrrecCreate sendsize recvsize buf mem reader writer locals) (fuel + 1) =
      some (true, s) ∧ s.inlet.unread = 0 ∧ s.inlet.window = [] ∧ s.reader = reader := by
  refine ⟨_, recSkiprecord_done ?_, create_unread sendsize recvsize buf mem reader writer locals,
    create_window sendsize recvsize buf mem reader writer locals, rfl⟩
  rintro (h | h)
  · exact absurd h (Int.lt_irrefl 0)
  · cases h

end Create

/-! ## Calls that send -/

theorem Placed.of_inSide {s s' : RecStrm ρ ω} (h : Placed s) (h' : RecInv s') (he : s'.inSide = s.inSide) :
    Placed s' := by
  have hp : (s'.inSize, s'.inBase, s'.inFinger, s'.inBoundary) = (s.inSize, s.inBase, s.inFinger, s.inBoundary) :=
    congrArg Prod.fst he
  simp only [Prod.mk.injEq] at hp
  obtain ⟨-, hb, hf, hw⟩ := hp
  refine ⟨h', ?_⟩
  rw [hb, hf, hw]
  exact h.2

/-- Every call keeps the window in its place. -/
theorem Placed.call {T : Transport ρ ω} {s s' : RecStrm ρ ω} (h : Placed s) {fuel : Nat} {o : RecOp} {r : RecResult}
    (hc : o.call fuel T s = some (r, s')) : Placed s' := by
  have hi := h.1.call T hc
  have hsend (p : SendOp) (hp : p.op = o) : Placed s' := by
    obtain ⟨r₁, s₁, hr, he⟩ := send_effect T h.1 fuel p
    rw [hp, hc] at hr
    cases hr
    exact h.of_inSide hi he.inSide
  cases o with
  | getlong => exact (call_inlet h fuel .getlong).2 _ hc
  | getbytes len => exact (call_inlet h fuel (.getbytes len)).2 _ hc
  | skiprecord => exact (call_inlet h fuel .skiprecord).2 _ hc
  | putlong lp => exact hsend (.put (.putlong lp)) rfl
  | putbytes addr hl => exact hsend (.put (.putbytes addr hl)) rfl
  | endofrecord sendnow => exact hsend (.endofrecord sendnow) rfl

/-- The stream has come about by calls on a new one. -/
def Reached (T : Transport ρ ω) (s : RecStrm ρ ω) : Prop :=
  ∃ sendsize recvsize buf mem reader writer locals fuel ops,
    run (recStep fuel T) (flexxdrrecCreate sendsize recvsize buf mem reader writer locals) ops = some s

theorem Reached.placed {T : Transport ρ ω} {s : RecStrm ρ ω} (h : Reached T s) : Placed s := by
  obtain ⟨sendsize, recvsize, buf, mem, reader, writer, locals, fuel, ops, hr⟩ := h
  refine Keeps.run ?_ (Placed.create sendsize recvsize buf mem reader writer locals) hr
  intro s₁ o s₂ h₁ hs
  obtain ⟨⟨r, s₃⟩, hc, rfl⟩ := Option.map_eq_some_iff.mp hs
  exact h₁.call hc

end Cornflakes.Flexrpc

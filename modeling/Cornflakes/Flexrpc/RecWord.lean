import Cornflakes.Flexrpc.RecInput

/-!
# Reading a word

`flexxdrrec_getlong` takes a word from the window at once where the fragment and the window have four bytes (`Inline`).
Elsewhere it has `flexxdrrec_getbytes` store four bytes in a local and converts what the local then holds.

`get_input_bytes` copies what the window has and stops, so that a copy from a window with fewer bytes than are wanted
(`Short`) leaves cells without a store. A header that is read so has bytes of the stack in it, and a word that is read
so has bytes of the local. `Intact` follows the loop of `flexxdrrec_getbytes` over the bytes still wanted: no header
may come short, and after a short copy the read has to end in FALSE. This is when `flexxdrrec_getlong` comes to the
same as reading four bytes into any variable (`getlong_agrees_iff`).
-/

set_option autoImplicit false

namespace Cornflakes.Flexrpc

open Wire

variable {ρ ω : Type}

/-- The condition of the inline case of `flexxdrrec_getlong`. -/
def RecStrm.Inline (s : RecStrm ρ ω) : Prop := s.fbtbc ≥ 4 ∧ s.inBoundary - s.inFinger ≥ 4

/-- Four bytes are read into a variable that held `old`, and converted. -/
def getlongByBytes (T : Transport ρ ω) (old : Word) (s : RecStrm ρ ω) : Option ULong × RecStrm ρ ω :=
  let (ok, cells, s) := flexxdrrecGetbytes T s 4
  if !ok then (none, s)
  else (some ((overlay cells old).signExtend 64), s)

/-- The same state with other contents of the stack. -/
def RecStrm.onStack (s : RecStrm ρ ω) (locals : Nat → Word) : RecStrm ρ ω := { s with locals := locals }

/-- `flexxdrrec_getlong` gives what reading four bytes gives, and leaves the same stream, whatever the variable held and
whatever is on the stack. -/
def GetlongAgrees (T : Transport ρ ω) (s : RecStrm ρ ω) : Prop := ∀ old locals,
  Agree RecStrm.Same (flexxdrrecGetlong T s) (getlongByBytes T old (s.onStack locals))

/-- The window has some of `n` bytes, but not all. -/
def RecStrm.Short (s : RecStrm ρ ω) (n : Nat) : Prop := 0 < s.window ∧ s.window < n

instance (s : RecStrm ρ ω) (n : Nat) : Decidable (s.Short n) := inferInstanceAs (Decidable (_ ∧ _))

/-- How `n` bytes come that leave nothing to what is on the stack; `cut` when a copy before them was short. -/
inductive Intact (T : Transport ρ ω) : Bool → Nat → RecStrm ρ ω → Prop
  | done {s : RecStrm ρ ω} : Intact T false 0 s
  | last {cut : Bool} {n : Nat} {s : RecStrm ρ ω} (hn : 0 < n) (hf : s.fbtbc = 0) (hl : s.lastFrag = true) :
      Intact T cut n s
  | header {cut : Bool} {n : Nat} {s : RecStrm ρ ω} (hn : 0 < n) (hf : s.fbtbc = 0) (hl : s.lastFrag = false)
      (hw : ¬ s.Short 4) (h : ∀ s', setInputFragment T s = (true, s') → Intact T cut n s') : Intact T cut n s
  | data {cut : Bool} {n c : Nat} {s : RecStrm ρ ω} (hn : 0 < n) (hf : 0 < s.fbtbc)
      (hc : (c : Int) = min (n : Int) s.fbtbc) (h : ∀ bs s', getInputBytes T s c = (true, bs, s') →
        Intact T (cut || decide (s.Short c)) (n - c) { s' with fbtbc := s.fbtbc - c }) : Intact T cut n s

namespace Intact

variable {T : Transport ρ ω} {cut : Bool} {n c : Nat} {s s' : RecStrm ρ ω}

/-- The header that is there is the one that is read. -/
theorem opened (hn : 0 < n) (hf : s.fbtbc = 0) (hl : s.lastFrag = false) (hw : ¬ s.Short 4)
    (hg : setInputFragment T s = (true, s')) (h : Intact T cut n s') : Intact T cut n s := by
  refine .header hn hf hl hw fun s₁ h₁ => ?_
  rw [hg] at h₁
  cases h₁
  exact h

theorem copied {bs : List Byte} (hn : 0 < n) (hf : 0 < s.fbtbc) (hc : (c : Int) = min (n : Int) s.fbtbc)
    (hg : getInputBytes T s c = (true, bs, s'))
    (h : Intact T (cut || decide (s.Short c)) (n - c) { s' with fbtbc := s.fbtbc - c }) : Intact T cut n s := by
  refine .data hn hf hc fun bs₁ s₁ h₁ => ?_
  rw [hg] at h₁
  cases h₁
  exact h

/-- A header that is refused ends the read. -/
theorem closed (hn : 0 < n) (hf : s.fbtbc = 0) (hl : s.lastFrag = false) (hw : ¬ s.Short 4)
    (hg : setInputFragment T s = (false, s')) : Intact T cut n s :=
  .header hn hf hl hw fun s₁ h₁ => by rw [hg] at h₁; cases h₁

/-- So does a refill that is refused. -/
theorem refused {bs : List Byte} (hn : 0 < n) (hf : 0 < s.fbtbc) (hc : (c : Int) = min (n : Int) s.fbtbc)
    (hg : getInputBytes T s c = (false, bs, s')) : Intact T cut n s :=
  .data hn hf hc fun bs₁ s₁ h₁ => by rw [hg] at h₁; cases h₁

end Intact

/-- The pointers of the input area are in order and not too far apart, and the fragment has a length. -/
structure RecStrm.Orderly (s : RecStrm ρ ω) : Prop where
  window : 0 ≤ s.window
  fbtbc_nonneg : 0 ≤ s.fbtbc
  fbtbc_lt : s.fbtbc < 2 ^ 31

section Orderly

variable {T : Transport ρ ω} {s s' : RecStrm ρ ω}

theorem RecStrm.Orderly.toUInt_fbtbc (h : s.Orderly) : (toUInt s.fbtbc : Int) = s.fbtbc := by
  have h₁ := h.fbtbc_nonneg
  have h₂ := h.fbtbc_lt
  unfold toUInt
  omega

theorem RecStrm.Orderly.onStack (h : s.Orderly) (L : Nat → Word) : (s.onStack L).Orderly :=
  ⟨h.window, h.fbtbc_nonneg, h.fbtbc_lt⟩

theorem RecStrm.Orderly.toUInt_eq_zero (h : s.Orderly) : toUInt s.fbtbc = 0 ↔ s.fbtbc = 0 := by
  have hu := h.toUInt_fbtbc
  omega

/-- The bytes a round takes of a fragment that is not empty. -/
theorem RecStrm.Orderly.exists_round (h : s.Orderly) (hf : ¬ toUInt s.fbtbc = 0) (n : Nat) :
    ∃ c : Nat, 0 < s.fbtbc ∧ (c : Int) = min (n : Int) s.fbtbc := by
  have h₀ := h.fbtbc_nonneg
  have hz := h.toUInt_eq_zero
  exact ⟨(min (n : Int) s.fbtbc).toNat, by omega, by omega⟩

/-- After a round of the loop. -/
theorem RecStrm.Orderly.round {n c : Nat} (h : s.Orderly) (hw : 0 ≤ s'.window) (hc : (c : Int) = min (n : Int) s.fbtbc) :
    RecStrm.Orderly { s' with fbtbc := s.fbtbc - c } := by
  have hlt := h.fbtbc_lt
  refine ⟨hw, ?_, ?_⟩ <;> dsimp only <;> omega

/-! ## What a copy takes -/

/-- A refill looks at the transport and the area alone. -/
theorem fillInput_onStack (s : RecStrm ρ ω) (L : Nat → Word) :
    fillInputBuf T (s.onStack L) = ((fillInputBuf T s).1, (fillInputBuf T s).2.onStack L) := by
  unfold fillInputBuf RecStrm.onStack
  dsimp only
  split <;> rfl

theorem getInput_onStack {n : Int} {ok : Bool} {bs : List Byte} (h : getInputBytes T s n = (ok, bs, s'))
    (L : Nat → Word) : getInputBytes T (s.onStack L) n = (ok, bs, s'.onStack L) := by
  have hw : (s.onStack L).window = s.window := rfl
  unfold getInputBytes at h ⊢
  rw [hw, fillInput_onStack]
  rcases hf : fillInputBuf T s with ⟨_ | _, s₁⟩ <;> rw [hf] at h <;> dsimp only at h ⊢ <;> split_ifs at h ⊢ <;>
    (cases h; rfl)

theorem fillInput_fbtbc {ok : Bool} (h : fillInputBuf T s = (ok, s')) : s'.fbtbc = s.fbtbc := by
  unfold fillInputBuf at h
  dsimp only at h
  split at h
  all_goals
    cases h
    rfl

/-- A copy from a window that is not empty takes what there is of the bytes. -/
theorem inputCopy_copied {n : Nat} {ok : Bool} {bs : List Byte} (hw : 0 < s.window) (h₄ : n ≤ 4)
    (h : inputCopy s n = (ok, bs, s')) :
    (bs.length : Int) = min (n : Int) s.window ∧ 0 ≤ s'.window ∧ s'.fbtbc = s.fbtbc := by
  unfold inputCopy at h
  obtain ⟨-, hb, hs⟩ := by simpa only [Prod.mk.injEq] using h
  have hm : (if (n : Int) < s.window then (n : Int) else s.window) = min (n : Int) s.window := by
    split <;> omega
  rw [hm] at hb hs
  subst hb hs
  refine ⟨?_, ?_, rfl⟩
  · rw [Heap.length_load, toSize]
    omega
  · rw [window_take s (by omega) (by omega)]
    omega

/-- What a copy of `n` bytes stores: some of them when the window is short, else all. -/
theorem getInput_copied {n : Nat} {bs : List Byte} (hs : 0 ≤ s.window) (hn : 0 < n) (h₄ : n ≤ 4)
    (h : getInputBytes T s n = (true, bs, s')) :
    (s.Short n → bs.length < n) ∧ (¬ s.Short n → bs.length = n) ∧ 0 ≤ s'.window ∧ s'.fbtbc = s.fbtbc := by
  unfold getInputBytes at h
  rw [if_pos (by omega)] at h
  by_cases hw : s.window = 0
  · rw [if_pos hw] at h
    rcases hf : fillInputBuf T s with ⟨_ | _, s₁⟩ <;> rw [hf] at h
    · cases h
    · -- After a refill there are four bytes.
      have hw₁ := window_fill T hf
      obtain ⟨hb, hw', hf'⟩ := inputCopy_copied (by omega) h₄ h
      rw [hw₁] at hb
      exact ⟨fun hc => absurd hc.1 (by omega), fun _ => by omega, hw', hf'.trans (fillInput_fbtbc hf)⟩
  · rw [if_neg hw] at h
    obtain ⟨hb, hw', hf'⟩ := inputCopy_copied (by omega) h₄ h
    exact ⟨fun hc => by have := hc.2; omega, fun hc => by have := not_and.mp hc (by omega); omega, hw', hf'⟩

/-! ## What a header takes -/

theorem setInput_orderly (hs : 0 ≤ s.window) (h : setInputFragment T s = (true, s')) : s'.Orderly := by
  unfold setInputFragment at h
  rcases hg : getInputBytes T s.enter 4 with ⟨_ | _, bs, s₁⟩ <;> rw [hg] at h
  · cases h
  · obtain ⟨-, -, hw, -⟩ := getInput_copied (s := s.enter) (n := 4) hs (by decide) (by decide) hg
    simp only [Bool.not_true, Bool.false_eq_true, if_false] at h
    split at h
    · cases h
    · cases h
      generalize overlay (bs.map some) (s.locals 0) = header
      have ht : (header &&& ~~~lastFragBit).toNat = header.toNat % 2 ^ 31 := toNat_and_not_topBit header
      exact ⟨hw, Int.natCast_nonneg _, by dsimp only; rw [ht]; omega⟩

/-- A header that is read whole has nothing of the stack in it. -/
theorem setInput_onStack (hs : 0 ≤ s.window) (hw : ¬ s.Short 4) {ok : Bool} (h : setInputFragment T s = (ok, s'))
    (L : Nat → Word) : setInputFragment T (s.onStack L) = (ok, s'.onStack fun n => L (n + 1)) := by
  unfold setInputFragment at h ⊢
  rcases hg : getInputBytes T s.enter 4 with ⟨ok₁, bs, s₁⟩
  have hg' : getInputBytes T (s.onStack L).enter 4 = (ok₁, bs, s₁.onStack fun n => L (n + 1)) :=
    getInput_onStack hg fun n => L (n + 1)
  rw [hg] at h
  rw [hg']
  cases ok₁ with
  | false =>
    cases h
    rfl
  | true =>
    obtain ⟨-, hb, -, -⟩ := getInput_copied (s := s.enter) (n := 4) hs (by decide) (by decide) hg
    obtain ⟨w, rfl⟩ := exists_toBytes (hb hw)
    simp only [overlay_word, Bool.not_true, Bool.false_eq_true, if_false] at h ⊢
    split_ifs at h ⊢
    all_goals
      cases h
      rfl

/-! ## What one round of the loop takes -/

/-- The bytes a round asks for. -/
theorem round_size {n c : Nat} (hs : s.Orderly) (h₄ : n ≤ 4) (hc : (c : Int) = min (n : Int) s.fbtbc) :
    (if n < toUInt s.fbtbc then n else toUInt s.fbtbc) = c ∧ toInt c = c := by
  have hu := hs.toUInt_fbtbc
  constructor
  · split <;> omega
  · unfold toInt
    omega

theorem getbytesCopy_refused {n c : Nat} {bs : List Byte} (hs : s.Orderly) (h₄ : n ≤ 4)
    (hc : (c : Int) = min (n : Int) s.fbtbc) (hg : getInputBytes T s c = (false, bs, s')) :
    getbytesCopy T s n = (false, bs.map some, n, s') := by
  obtain ⟨hcur, hci⟩ := round_size hs h₄ hc
  unfold getbytesCopy
  simp only [hcur, hci, hg]
  rfl

theorem getbytesCopy_copied {n c : Nat} {bs : List Byte} (hs : s.Orderly) (h₄ : n ≤ 4)
    (hc : (c : Int) = min (n : Int) s.fbtbc) (hg : getInputBytes T s c = (true, bs, s')) (hf : s'.fbtbc = s.fbtbc) :
    getbytesCopy T s n = (true, bs.map some ++ List.replicate (c - bs.length) none, n - c,
      { s' with fbtbc := s.fbtbc - c }) := by
  obtain ⟨hcur, hci⟩ := round_size hs h₄ hc
  unfold getbytesCopy
  simp only [hcur, hci, hg, hf]
  rfl

theorem getbytes_round {n c : Nat} {bs : List Byte} (hs : s.Orderly) (hn : 0 < n) (h₄ : n ≤ 4) (hf : 0 < s.fbtbc)
    (hc : (c : Int) = min (n : Int) s.fbtbc) (hg : getInputBytes T s c = (true, bs, s')) (hfb : s'.fbtbc = s.fbtbc)
    (L : Nat → Word) :
    flexxdrrecGetbytes T (s.onStack L) n =
      let r := flexxdrrecGetbytes T (RecStrm.onStack { s' with fbtbc := s.fbtbc - c } L) (n - c)
      (r.1, bs.map some ++ List.replicate (c - bs.length) none ++ r.2.1, r.2.2) :=
  recGetbytes_next (s := s.onStack L) hn (fun h0 => Int.ne_of_gt hf (hs.toUInt_eq_zero.mp h0))
    (getbytesCopy_copied (hs.onStack L) h₄ hc (getInput_onStack hg L) hfb)

/-! ## Bytes that come intact -/

/-- Nothing of the stack enters the result, the cells or the stream, and all cells are stored when all are wanted. -/
theorem Intact.settled {cut : Bool} {n : Nat} (h : Intact T cut n s) (hs : s.Orderly) (h₄ : n ≤ 4) :
    ∃ (ok : Bool) (cells : List (Option Byte)) (s' : RecStrm ρ ω),
      (∀ L, ∃ L', flexxdrrecGetbytes T (s.onStack L) n = (ok, cells, s'.onStack L')) ∧
      (ok = true → cut = false ∧ ∃ bs : List Byte, bs.length = n ∧ cells = bs.map some) := by
  induction h with
  | @done s => exact ⟨true, [], s, fun L => ⟨L, recGetbytes_zero⟩, fun _ => ⟨rfl, [], rfl, rfl⟩⟩
  | @last cut n s hn hf hl =>
    exact ⟨false, [], s, fun L => ⟨L, recGetbytes_last hn (hs.toUInt_eq_zero.mpr hf) hl⟩, nofun⟩
  | @header cut n s hn hf hl hw h ih =>
    have hf' := hs.toUInt_eq_zero.mpr hf
    have hl' : ¬ s.lastFrag = true := by rw [hl]; exact Bool.false_ne_true
    rcases hg : setInputFragment T s with ⟨_ | _, s₁⟩
    · exact ⟨false, [], s₁, fun L => ⟨_, recGetbytes_refused (s := s.onStack L) hn hf' hl'
        (setInput_onStack hs.window hw hg L)⟩, nofun⟩
    · obtain ⟨ok, cells, s', hrun, hok⟩ := ih s₁ hg (setInput_orderly hs.window hg) h₄
      refine ⟨ok, cells, s', fun L => ?_, hok⟩
      obtain ⟨L', hL⟩ := hrun fun n => L (n + 1)
      exact ⟨L', (recGetbytes_open (s := s.onStack L) hn hf' hl' (setInput_onStack hs.window hw hg L)).trans hL⟩
  | @data cut n c s hn hf hc h ih =>
    have hf' : ¬ toUInt s.fbtbc = 0 := fun h0 => Int.ne_of_gt hf (hs.toUInt_eq_zero.mp h0)
    rcases hg : getInputBytes T s c with ⟨_ | _, bs, s₁⟩
    · refine ⟨false, bs.map some, s₁, fun L => ⟨L, ?_⟩, nofun⟩
      exact recGetbytes_cut hn hf' (getbytesCopy_refused (hs.onStack L) h₄ hc (getInput_onStack hg L))
    · obtain ⟨-, hb, hw, hfb⟩ := getInput_copied hs.window (by omega) (by omega) hg
      obtain ⟨ok, cells, s', hrun, hok⟩ := ih bs s₁ hg (hs.round hw hc) (by omega)
      refine ⟨ok, bs.map some ++ List.replicate (c - bs.length) none ++ cells, s', fun L => ?_, fun ho => ?_⟩
      · obtain ⟨L', hL⟩ := hrun L
        exact ⟨L', by rw [getbytes_round hs hn h₄ hf hc hg hfb, hL]⟩
      · obtain ⟨hcut, bs', hlen, rfl⟩ := hok ho
        obtain ⟨hcut, hshort⟩ := Bool.or_eq_false_iff.mp hcut
        have hbc := hb (of_decide_eq_false hshort)
        refine ⟨hcut, bs ++ bs', ?_, ?_⟩
        · rw [List.length_append]
          omega
        · rw [hbc, Nat.sub_self, List.replicate_zero, List.append_nil, List.map_append]

/-! ## Bytes that do not -/

/-- The last byte of a header that comes short is one of the stack. -/
theorem overlay_low {bs : List Byte} (hb : bs.length < 4) :
    ∃ q : Nat, ∀ b : Byte, (overlay (bs.map some) (ofBytes 0 0 0 b)).toNat = 256 * q + b.toNat := by
  have hq (x y z b : Byte) : (ofBytes x y z b).toNat = 256 * (x ++ y ++ z).toNat + b.toNat := by
    unfold ofBytes
    rw [BitVec.toNat_append, ← Nat.shiftLeft_add_eq_or_of_lt b.isLt, Nat.shiftLeft_eq]
    omega
  have hov (x y z : Byte) (h : ∀ b, overlay (bs.map some) (ofBytes 0 0 0 b) = ofBytes x y z b) :
      ∃ q : Nat, ∀ b : Byte, (overlay (bs.map some) (ofBytes 0 0 0 b)).toNat = 256 * q + b.toNat :=
    ⟨(x ++ y ++ z).toNat, fun b => by rw [h, hq]⟩
  match bs with
  | [] => exact hov 0 0 0 fun b => by rw [overlay, toBytes_ofBytes]; rfl
  | [x] => exact hov x 0 0 fun b => by rw [overlay, toBytes_ofBytes]; rfl
  | [x, y] => exact hov x y 0 fun b => by rw [overlay, toBytes_ofBytes]; rfl
  | [x, y, z] => exact hov x y z fun b => by rw [overlay, toBytes_ofBytes]; rfl

/-- The stack gives the last byte of the length when a header comes short. -/
theorem setInput_short (hw : s.Short 4) : ∃ q : Nat, ∀ b : Byte, b ≠ 0 → ∃ last,
    setInputFragment T (s.onStack fun _ => ofBytes 0 0 0 b) =
      (true, RecStrm.onStack { s.take s.window with fbtbc := (256 * q + b.toNat : Nat), lastFrag := last }
        fun _ => ofBytes 0 0 0 b) ∧ 256 * q + b.toNat < 2 ^ 31 := by
  obtain ⟨h₀, h₄⟩ := hw
  have hcopy : getInputBytes T s 4 = (true, s.mem.load s.inFinger (toSize s.window), s.take s.window) := by
    unfold getInputBytes inputCopy
    have hcur : (if (4 : Int) < s.window then 4 else s.window) = s.window := if_neg (by omega)
    rw [if_pos (by decide), if_neg (by omega)]
    simp only [hcur]
  have hlen : (s.mem.load s.inFinger (toSize s.window)).length < 4 := by
    rw [Heap.length_load, toSize]
    omega
  obtain ⟨q, hq⟩ := overlay_low hlen
  refine ⟨q % 2 ^ 23, fun b hb => ?_⟩
  have hb₀ : b.toNat ≠ 0 := fun h => hb (BitVec.eq_of_toNat_eq h)
  have hb₈ := b.isLt
  have hh := hq b
  unfold setInputFragment
  rw [show getInputBytes T (s.onStack fun _ => ofBytes 0 0 0 b).enter 4 = _ from getInput_onStack hcopy _]
  dsimp only [RecStrm.onStack]
  generalize overlay _ _ = header at hh ⊢
  have hne : ¬ header = 0 := fun h => by rw [h] at hh; exact hb₀ (by simp at hh; omega)
  have ht : (header &&& ~~~lastFragBit).toNat = header.toNat % 2 ^ 31 := toNat_and_not_topBit header
  simp only [Bool.not_true, Bool.false_eq_true, if_false, if_neg hne, ht, hh]
  have hmod : (256 * q + b.toNat) % 2 ^ 31 = 256 * (q % 2 ^ 23) + b.toNat := by omega
  rw [hmod]
  exact ⟨_, rfl, by omega⟩

theorem fillInput_result (s : RecStrm ρ ω) : (fillInputBuf T s).1 = true ↔ ¬ (T.readit s.reader 4).2.1 = -1 := by
  unfold fillInputBuf
  dsimp only
  split
  · exact iff_of_false Bool.false_ne_true (not_not.mpr ‹_›)
  · exact iff_of_true rfl ‹_›

/-- Bytes that are read from an empty window. -/
theorem getbytes_refilled {n : Nat} (hs : s.Orderly) (hn : 0 < n) (h₄ : n ≤ 4) (hw : s.window = 0)
    (hf : (n : Int) ≤ s.fbtbc) :
    (flexxdrrecGetbytes T s n).2.2.fbtbc = s.fbtbc - if (T.readit s.reader 4).2.1 = -1 then 0 else (n : Int) := by
  have hc : (n : Int) = min (n : Int) s.fbtbc := by omega
  have hr := fillInput_result (T := T) s
  rcases hfill : fillInputBuf T s with ⟨_ | _, s₁⟩ <;> rw [hfill] at hr
  · have hg : getInputBytes T s n = (false, [], s₁) := by
      unfold getInputBytes
      rw [if_pos (by omega), if_pos hw, hfill]
      rfl
    have hf' : ¬ toUInt s.fbtbc = 0 := fun h0 => by have := hs.toUInt_eq_zero.mp h0; omega
    rw [recGetbytes_cut hn hf' (getbytesCopy_refused hs h₄ hc hg), if_pos (by simpa using hr),
      fillInput_fbtbc hfill, Int.sub_zero]
  · have hg : getInputBytes T s n = inputCopy s₁ n := by
      unfold getInputBytes
      rw [if_pos (by omega), if_pos hw, hfill]
      rfl
    rcases hcopy : inputCopy s₁ n with ⟨ok, bs, s₂⟩
    obtain rfl : ok = true := by
      unfold inputCopy at hcopy
      exact (Prod.mk.inj hcopy).1.symm
    obtain ⟨-, -, -, hfb⟩ := getInput_copied hs.window hn h₄ (hg.trans hcopy)
    have hround := getbytes_round hs hn h₄ (by omega) hc (hg.trans hcopy) hfb s.locals
    rw [Nat.sub_self, recGetbytes_zero] at hround
    rw [show flexxdrrecGetbytes T s n = _ from hround, if_neg (hr.mp rfl)]
    rfl

/-- After a header that comes short the length of the fragment depends on the stack. -/
theorem short_header {n : Nat} (hs : s.Orderly) (hn : 0 < n) (h₄ : n ≤ 4) (hf : s.fbtbc = 0) (hl : s.lastFrag = false)
    (hw : s.Short 4) (f : Int) : ∃ L, (flexxdrrecGetbytes T (s.onStack L) n).2.2.fbtbc ≠ f := by
  obtain ⟨q, hq⟩ := setInput_short (T := T) hw
  have hl' : ¬ s.lastFrag = true := by rw [hl]; exact Bool.false_ne_true
  have hwin : (s.take s.window).window = 0 := by
    rw [window_take s (by omega) (by omega), Int.sub_self]
  -- The final length for a last byte that leaves more than is wanted.
  have hfinal (b : Byte) (hb : 4 ≤ b.toNat) : (flexxdrrecGetbytes T (s.onStack fun _ => ofBytes 0 0 0 b) n).2.2.fbtbc =
      (256 * q + b.toNat : Nat) - if (T.readit s.reader 4).2.1 = -1 then 0 else (n : Int) := by
    obtain ⟨last, hset, hlt⟩ := hq b (by rintro rfl; exact absurd hb (by decide))
    rw [recGetbytes_open (s := s.onStack fun _ => ofBytes 0 0 0 b) hn (hs.toUInt_eq_zero.mpr hf) hl' hset]
    exact getbytes_refilled ⟨Int.le_of_eq hwin.symm, Int.natCast_nonneg _, by dsimp only [RecStrm.onStack]; omega⟩ hn h₄
      hwin (by dsimp only [RecStrm.onStack]; omega)
  by_cases h8 : (flexxdrrecGetbytes T (s.onStack fun _ => ofBytes 0 0 0 8) n).2.2.fbtbc = f
  · refine ⟨fun _ => ofBytes 0 0 0 9, fun h9 => ?_⟩
    rw [hfinal 8 (by decide)] at h8
    rw [hfinal 9 (by decide)] at h9
    have e8 : (8 : Byte).toNat = 8 := rfl
    have e9 : (9 : Byte).toNat = 9 := rfl
    omega
  · exact ⟨_, h8⟩

/-- Where the bytes do not come intact, a header comes short or the read ends in TRUE with a cell that was not stored. -/
theorem broken {n : Nat} {cut : Bool} (hs : s.Orderly) (h₄ : n ≤ 4) (h : ¬ Intact T cut n s) :
    (∀ f : Int, ∃ L, (flexxdrrecGetbytes T (s.onStack L) n).2.2.fbtbc ≠ f) ∨
      ∀ L, (flexxdrrecGetbytes T (s.onStack L) n).1 = true ∧ (flexxdrrecGetbytes T (s.onStack L) n).2.1.length = n ∧
        (cut = true ∨ none ∈ (flexxdrrecGetbytes T (s.onStack L) n).2.1) := by
  induction s, n using flexxdrrecGetbytes.induct T generalizing cut with
  | case1 s n hn hf hl => exact absurd (.last hn (hs.toUInt_eq_zero.mp hf) hl) h
  | case2 s n hn hf hl s' hg =>
    have hf' := hs.toUInt_eq_zero.mp hf
    have hl' : s.lastFrag = false := Bool.eq_false_of_not_eq_true hl
    by_cases hw : s.Short 4
    · exact .inl (short_header hs hn h₄ hf' hl' hw)
    · exact absurd (.closed hn hf' hl' hw hg) h
  | case3 s n hn hf hl s' hg ih =>
    have hf' := hs.toUInt_eq_zero.mp hf
    have hl' : s.lastFrag = false := Bool.eq_false_of_not_eq_true hl
    by_cases hw : s.Short 4
    · exact .inl (short_header hs hn h₄ hf' hl' hw)
    · have hnot : ¬ Intact T cut n s' := fun hi => h (.opened hn hf' hl' hw hg hi)
      have hopen (L : Nat → Word) : flexxdrrecGetbytes T (s.onStack L) n =
          flexxdrrecGetbytes T (s'.onStack fun n => L (n + 1)) n :=
        recGetbytes_open (s := s.onStack L) hn hf hl (setInput_onStack hs.window hw hg L)
      rcases ih (setInput_orderly hs.window hg) h₄ hnot with hr | hr
      · refine .inl fun f => ?_
        obtain ⟨L, hL⟩ := hr f
        -- One more word below those that the rest of the read finds.
        refine ⟨fun n => L (n - 1), ?_⟩
        rw [hopen]
        exact hL
      · refine .inr fun L => ?_
        rw [hopen]
        exact hr _
  | case4 s n hn hf cells n' s' hg =>
    obtain ⟨c, hpos, hc⟩ := hs.exists_round hf n
    rcases hin : getInputBytes T s c with ⟨_ | _, bs, s₁⟩
    · exact absurd (.refused hn hpos hc hin) h
    · obtain ⟨-, -, -, hfb⟩ := getInput_copied hs.window (by omega) (by omega) hin
      rw [getbytesCopy_copied hs h₄ hc hin hfb] at hg
      cases hg
  | case5 s n hn hf cells n' s' hg _ _ _ _ ih =>
    obtain ⟨c, hpos, hc⟩ := hs.exists_round hf n
    rcases hin : getInputBytes T s c with ⟨_ | _, bs, s₁⟩
    · rw [getbytesCopy_refused hs h₄ hc hin] at hg
      cases hg
    · obtain ⟨hshort, hfull, hw, hfb⟩ := getInput_copied hs.window (by omega) (by omega) hin
      rw [getbytesCopy_copied hs h₄ hc hin hfb] at hg
      cases hg
      have hnot : ¬ Intact T (cut || decide (s.Short c)) (n - c) { s₁ with fbtbc := s.fbtbc - c } := fun hi =>
        h (.copied hn hpos hc hin hi)
      have hround := getbytes_round hs hn h₄ hpos hc hin hfb
      rcases ih (hs.round hw hc) (by omega) hnot with hr | hr
      · refine .inl fun f => ?_
        obtain ⟨L, hL⟩ := hr f
        exact ⟨L, by rw [hround]; exact hL⟩
      · refine .inr fun L => ?_
        obtain ⟨hok, hlen, hgap⟩ := hr L
        rw [hround]
        refine ⟨hok, ?_, ?_⟩
        · have hle : bs.length ≤ c := by
            by_cases hc' : s.Short c
            · exact Nat.le_of_lt (hshort hc')
            · exact Nat.le_of_eq (hfull hc')
          rw [List.length_append, List.length_append, List.length_map, List.length_replicate]
          omega
        · rcases hgap with hcut | hmem
          · -- The copy of this round or an earlier one was short.
            rcases Bool.or_eq_true_iff.mp hcut with hcut | hc'
            · exact .inl hcut
            · have hlt := hshort (of_decide_eq_true hc')
              exact .inr (List.mem_append_left _ (List.mem_append_right _ (List.mem_replicate.mpr ⟨by omega, rfl⟩)))
          · exact .inr (List.mem_append_right _ hmem)
  | case6 s n hn =>
    obtain rfl : n = 0 := Nat.eq_zero_of_not_pos hn
    cases cut with
    | false => exact absurd .done h
    | true => exact .inr fun L => by rw [recGetbytes_zero]; exact ⟨rfl, rfl, .inl rfl⟩

/-! ## The two paths -/

theorem toBytes_overlay (a b c d : Option Byte) (w : Word) :
    toBytes (overlay [a, b, c, d] w) = List.zipWith (fun c b => c.getD b) [a, b, c, d] (toBytes w) :=
  toBytes_ofBytes _ _ _ _

/-- A cell without a store shows what the variable held. -/
theorem exists_overlay_ne {cells : List (Option Byte)} (hl : cells.length = 4) (hn : none ∈ cells) (w : Word) :
    ∃ old, overlay cells old ≠ overlay cells w := by
  match cells, hl with
  | [a, b, c, d], _ =>
    have hne (x : Byte) : x + 1 ≠ x := by
      intro h
      have hx := congrArg BitVec.toNat h
      rw [BitVec.toNat_add, show (1 : Byte).toNat = 1 from rfl] at hx
      omega
    refine ⟨ofBytes (w.extractLsb' 24 8 + 1) (w.extractLsb' 16 8 + 1) (w.extractLsb' 8 8 + 1) (w.extractLsb' 0 8 + 1),
      fun h => ?_⟩
    have hb := congrArg toBytes h
    rw [toBytes_overlay, toBytes_overlay, toBytes_ofBytes] at hb
    simp only [toBytes, List.zipWith_cons_cons, List.cons.injEq] at hb
    obtain ⟨h₁, h₂, h₃, h₄, -⟩ := hb
    simp only [List.mem_cons, List.not_mem_nil, or_false] at hn
    rcases hn with rfl | rfl | rfl | rfl
    · exact hne _ h₁
    · exact hne _ h₂
    · exact hne _ h₃
    · exact hne _ h₄

theorem getlong_bytes (hi : ¬ s.Inline) : flexxdrrecGetlong T s = getlongByBytes T (s.locals 0) s.enter := if_neg hi

theorem getlongByBytes_failed {cells : List (Option Byte)} (h : flexxdrrecGetbytes T s 4 = (false, cells, s'))
    (old : Word) : getlongByBytes T old s = (none, s') := by
  unfold getlongByBytes
  rw [h]
  rfl

theorem getlongByBytes_read {cells : List (Option Byte)} (h : flexxdrrecGetbytes T s 4 = (true, cells, s'))
    (old : Word) : getlongByBytes T old s = (some ((overlay cells old).signExtend 64), s') := by
  unfold getlongByBytes
  rw [h]
  rfl

theorem getlongByBytes_state (old : Word) : (getlongByBytes T old s).2 = (flexxdrrecGetbytes T s 4).2.2 := by
  rcases h : flexxdrrecGetbytes T s 4 with ⟨_ | _, cells, s'⟩
  · rw [getlongByBytes_failed h]
  · rw [getlongByBytes_read h]

/-- Where the fragment and the window both have four bytes, the loops go round once each. -/
theorem getbytes_inline (hi : s.Inline) (hs : s.Orderly) (hw : s.window = s.inBoundary - s.inFinger) (L : Nat → Word) :
    flexxdrrecGetbytes T (s.onStack L) 4 =
      (true, (s.mem.load s.inFinger 4).map some, RecStrm.onStack { s.take 4 with fbtbc := s.fbtbc - 4 } L) := by
  obtain ⟨hf, hb⟩ := hi
  have hg : getInputBytes T s (4 : Nat) = (true, s.mem.load s.inFinger 4, s.take 4) := by
    have hcur : (if (4 : Int) < s.window then 4 else s.window) = 4 := by
      split <;> omega
    unfold getInputBytes inputCopy
    rw [if_pos (by decide), if_neg (by omega)]
    simp only [Nat.cast_ofNat, hcur]
    rfl
  have hround := getbytes_round hs (n := 4) (by decide) (Nat.le_refl 4) (by omega) (by omega) hg rfl L
  rw [hround, Nat.sub_self, recGetbytes_zero, Heap.length_load, Nat.sub_self]
  simp only [List.replicate_zero, List.append_nil]
  rfl

theorem Intact.inline (hi : s.Inline) (hw : s.window = s.inBoundary - s.inFinger) : Intact T false 4 s := by
  obtain ⟨hf, hb⟩ := hi
  refine .data (c := 4) (by decide) (by omega) (by omega) fun bs s' h => ?_
  rw [Nat.sub_self, show (false || decide (s.Short 4)) = false from decide_eq_false fun hc => by have := hc.2; omega]
  exact .done

/-- Bytes that come intact make a word that nothing of the stack enters. -/
theorem Intact.word (h : Intact T false 4 s) (hs : s.Orderly) : ∃ (r : Option ULong) (s' : RecStrm ρ ω),
    ∀ old L, ∃ L', getlongByBytes T old (s.onStack L) = (r, s'.onStack L') := by
  obtain ⟨ok, cells, s', hrun, hok⟩ := h.settled hs (Nat.le_refl 4)
  cases ok with
  | false => exact ⟨none, s', fun old L => (hrun L).imp fun L' hL => getlongByBytes_failed hL old⟩
  | true =>
    obtain ⟨-, bs, hbs, rfl⟩ := hok rfl
    obtain ⟨w, rfl⟩ := exists_toBytes hbs
    refine ⟨some (w.signExtend 64), s', fun old L => (hrun L).imp fun L' hL => ?_⟩
    rw [getlongByBytes_read hL, overlay_word]

/-- **Reading a word comes to the same as reading four bytes and converting them** exactly when the bytes come intact. -/
theorem getlong_agrees_iff (h : s.inFinger ≤ s.inBoundary) (hd : s.inBoundary - s.inFinger < 2 ^ 31)
    (h₀ : 0 ≤ s.fbtbc) (hf : s.fbtbc < 2 ^ 31) :
    GetlongAgrees T s ↔ Intact T false 4 s := by
  have hwin := window_eq_sub h hd
  have hs : s.Orderly := ⟨by omega, h₀, hf⟩
  constructor
  · intro hagree
    by_contra hnot
    unfold GetlongAgrees at hagree
    rw [getlong_bytes fun hi => hnot (.inline hi hwin)] at hagree
    rcases broken hs (Nat.le_refl 4) hnot with hr | hr
    · -- Another stack gives another length.
      obtain ⟨L, hL⟩ := hr (getlongByBytes T (s.locals 0) s.enter).2.fbtbc
      obtain ⟨locals, trace, hsame⟩ := (hagree 0 L).state
      rw [getlongByBytes_state] at hsame
      exact hL (by rw [hsame])
    · -- Another variable gives another word.
      obtain ⟨hok, hlen, hgap⟩ := hr s.enter.locals
      have hres (old : Word) := (hagree old s.enter.locals).result
      rcases hg : flexxdrrecGetbytes T s.enter 4 with ⟨ok, cells, s'⟩
      have hg' : flexxdrrecGetbytes T (s.onStack s.enter.locals) 4 = (ok, cells, s') := hg
      rw [hg'] at hok hlen hgap
      obtain rfl : ok = true := hok
      obtain ⟨old, hold⟩ := exists_overlay_ne hlen (hgap.resolve_left Bool.false_ne_true) (s.locals 0)
      have hword := hres old
      rw [getlongByBytes_read hg, getlongByBytes_read hg'] at hword
      have hext := congrArg (BitVec.setWidth 32) (Option.some.inj hword)
      rw [setWidth_signExtend _ (by decide), setWidth_signExtend _ (by decide)] at hext
      exact hold hext.symm
  · intro hi old locals
    by_cases hin : s.Inline
    · obtain ⟨w, hw⟩ := exists_toBytes (Heap.length_load s.mem s.inFinger 4)
      have hlong : flexxdrrecGetlong T s = (some ((overlay ((s.mem.load s.inFinger 4).map some) 0).signExtend 64),
          { s.take 4 with fbtbc := s.fbtbc - 4 }) := if_pos hin
      -- All four bytes are stored, so that it does not matter what the variable held.
      rw [hlong, getlongByBytes_read (getbytes_inline hin hs hwin locals), hw, overlay_word, overlay_word]
      exact ⟨rfl, locals, _, rfl⟩
    · obtain ⟨r, s', hrun⟩ := hi.word hs
      obtain ⟨L, hL⟩ := hrun (s.locals 0) s.enter.locals
      obtain ⟨L', hL'⟩ := hrun old locals
      rw [getlong_bytes hin, show s.enter = s.onStack s.enter.locals from rfl, hL, hL']
      exact ⟨rfl, L', s'.trace, rfl⟩

end Orderly

/-- A stream that was created over a peer that sends these words. -/
def created (ws : List Word) : RecStrm (List Word) Unit :=
  flexxdrrecCreate 0 0 0 (fun _ => 0) ws () (fun _ => 0)

/-- Two bytes are left of a fragment, and the other two of the word are in the next one. -/
def straddling : RecStrm (List Word) Unit :=
  { created [0x80000002, 0x03040000] with
    mem := fun _ => 7, inFinger := 3994, inBoundary := 3996, fbtbc := 2, lastFrag := false }

theorem getlong_agrees_straddling : GetlongAgrees wordPeer straddling := by
  refine (getlong_agrees_iff (by decide) (by decide) (by decide) (by decide)).mpr ?_
  refine .copied (c := 2) (by decide) (by decide) (by decide) rfl ?_
  refine .opened (by decide) (by decide) rfl (by decide) rfl ?_
  exact .copied (c := 2) (by decide) (by decide) (by decide) rfl .done

/-- The record `80000006 01 02 03 04 05 06` is opened. -/
def sixOpened : RecStrm (List Word) Unit :=
  { created [0x01020304, 0x05060000] with
    mem := Heap.store (fun _ => 0) 3992 (toBytes 0x80000006)
    inFinger := 3996
    inBoundary := 3996
    fbtbc := 6
    trace := [.fill 3992 4, .take 3992 4] }

/-- Two of its bytes have been read. -/
def twoOfSix : RecStrm (List Word) Unit :=
  { created [0x05060000] with
    mem := sixOpened.mem.store 3992 (toBytes 0x01020304)
    inFinger := 3994
    inBoundary := 3996
    fbtbc := 4
    trace := [.fill 3992 4, .take 3992 4, .fill 3992 4, .take 3992 2] }

/-- `flexxdrrec_skiprecord` and `flexxdrrec_getbytes` for two bytes lead there. -/
theorem twoOfSix_reached : ∃ s, flexxdrrecSkiprecord wordPeer (created [0x80000006, 0x01020304, 0x05060000]) 1 =
      some (true, s) ∧ flexxdrrecGetbytes wordPeer s 2 = (true, [some 1, some 2], twoOfSix) := by
  refine ⟨{ created [0x80000006, 0x01020304, 0x05060000] with lastFrag := false }, rfl, ?_⟩
  have hopen : setInputFragment wordPeer { created [0x80000006, 0x01020304, 0x05060000] with lastFrag := false } =
      (true, sixOpened) := rfl
  have hcopy : getbytesCopy wordPeer sixOpened 2 = (true, [some 1, some 2], 0, twoOfSix) := rfl
  rw [recGetbytes_open (by decide) (by decide) (by decide) hopen, recGetbytes_next (by decide) (by decide) hcopy,
    recGetbytes_zero]
  rfl

/-- The last two bytes of the next word are those that the variable held. -/
theorem word_not_read : (∃ s, flexxdrrecSkiprecord wordPeer (created [0x80000006, 0x01020304, 0x05060000]) 1 =
      some (true, s) ∧ flexxdrrecGetbytes wordPeer s 2 = (true, [some 1, some 2], twoOfSix)) ∧
    ¬ GetlongAgrees wordPeer twoOfSix := by
  refine ⟨twoOfSix_reached, fun h => ?_⟩
  have hcopy : getbytesCopy wordPeer (twoOfSix.onStack fun _ => 0) 4 =
      (true, [some 3, some 4, none, none], 0, { (twoOfSix.onStack fun _ => 0).take 2 with fbtbc := 0 }) := rfl
  have hg : flexxdrrecGetbytes wordPeer (twoOfSix.onStack fun _ => 0) 4 =
      (true, [some 3, some 4, none, none], { (twoOfSix.onStack fun _ => 0).take 2 with fbtbc := 0 }) := by
    rw [recGetbytes_next (by decide) (by decide) hcopy, recGetbytes_zero]
    rfl
  have h₀ := (h 0 fun _ => 0).result
  rw [(h 1 fun _ => 0).result, getlongByBytes_read hg, getlongByBytes_read hg] at h₀
  exact absurd h₀ (by decide)

end Cornflakes.Flexrpc

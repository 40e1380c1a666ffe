import Cornflakes.Flexrpc.Feed
import Cornflakes.Wire.Tape

/-!
# Where the receive loops end

What an inlet has ahead, whatever `readit` gives and returns, is a tape of blocks of four cells (`Inlet.tape`): a block is
what the cells hold after a call of `readit`, and there is none after a call that returned -1. A peer that has closed
makes `readit` return 0, so the tape goes on and repeats the last block (`blocks_closed`). A skip moves along the tape
(`skip_sought`), and `flexxdrrec_skiprecord` returns exactly when the chain of fragments on it ends
(`receive_returns_iff`).
-/

set_option autoImplicit false

namespace Cornflakes.Flexrpc

open Wire

variable {ρ ω : Type}

namespace Inlet

/-! ## The tape of an inlet -/

/-- The cells after the calls of `readit` to come. -/
def blocks (T : Transport ρ ω) (cells : List Byte) (r : ρ) : Nat → Option (List Byte)
  | 0 => if (T.readit r 4).2.1 = -1 then none else some ((T.readit r 4).1 ++ cells.drop (T.readit r 4).1.length)
  | i + 1 =>
    if (T.readit r 4).2.1 = -1 then none
    else blocks T ((T.readit r 4).1 ++ cells.drop (T.readit r 4).1.length) (T.readit r 4).2.2 i

/-- What the inlet has ahead. -/
def tape (T : Transport ρ ω) (v : Inlet ρ) : Tape Byte := ⟨v.window, blocks T v.cells v.reader⟩

variable {T : Transport ρ ω} {v v' : Inlet ρ}

theorem blocks_succ (T : Transport ρ ω) (cells : List Byte) (r : ρ) (i : Nat) : blocks T cells r (i + 1) =
    if (T.readit r 4).2.1 = -1 then none
    else blocks T ((T.readit r 4).1 ++ cells.drop (T.readit r 4).1.length) (T.readit r 4).2.2 i := rfl

theorem blocks_sound (T : Transport ρ ω) (cells : List Byte) (r : ρ) (i : Nat) (h : blocks T cells r i = none) :
    blocks T cells r (i + 1) = none := by
  by_cases hn : (T.readit r 4).2.1 = -1
  · rw [blocks_succ, if_pos hn]
  · rw [blocks_succ, if_neg hn]
    induction i generalizing cells r with
    | zero =>
      rw [blocks, if_neg hn] at h
      cases h
    | succ i ih =>
      rw [blocks_succ, if_neg hn] at h
      by_cases hn' : (T.readit (T.readit r 4).2.2 4).2.1 = -1
      · rw [blocks_succ, if_pos hn']
      · rw [blocks_succ, if_neg hn']
        exact ih _ _ h hn'

/-- A peer that has closed: the last block again and again. -/
theorem blocks_closed {r : ρ} (h : T.readit r 4 = ([], 0, r)) (cells : List Byte) (i : Nat) :
    blocks T cells r i = some cells := by
  have hn : ¬ (T.readit r 4).2.1 = -1 := by
    rw [show (T.readit r 4).2.1 = 0 by rw [h]]
    decide
  have hc : (T.readit r 4).1 ++ cells.drop (T.readit r 4).1.length = cells := by rw [h]; rfl
  induction i with
  | zero => rw [blocks, if_neg hn, hc]
  | succ i ih => rw [blocks_succ, if_neg hn, hc, show (T.readit r 4).2.2 = r by rw [h], ih]

/-- A refill loads the next block. -/
theorem refill_load (h : v.Sound) (hu : v.unread = 0) (hr : v.refill T = (true, v')) :
    (v.tape T).block 0 = some v'.cells ∧ v'.tape T = (v.tape T).load v'.cells ∧ v'.Sound ∧ v.Steady v' ∧ v'.unread = 4 := by
  have hl := T.length_readit v.reader 4
  rw [refill, if_pos hu] at hr
  dsimp only at hr
  split at hr
  · cases hr
  · next hn =>
    cases hr
    refine ⟨if_neg hn, ?_, ⟨?_, Nat.le_refl 4⟩, ⟨rfl, rfl, rfl⟩, rfl⟩
    · have hb : (fun i => blocks T v.cells v.reader (i + 1)) =
          blocks T ((T.readit v.reader 4).1 ++ v.cells.drop (T.readit v.reader 4).1.length) (T.readit v.reader 4).2.2 :=
        funext fun i => if_neg hn
      simp only [tape, Tape.load, window, Nat.sub_self, List.drop_zero, hb]
    · show ((T.readit v.reader 4).1 ++ v.cells.drop (T.readit v.reader 4).1.length).length = 4
      rw [List.length_append, List.length_drop, h.1]
      omega

/-- A refill that fails is the end of the tape. -/
theorem refill_end (hr : v.refill T = (false, v')) : v.unread = 0 ∧ (v.tape T).block 0 = none := by
  rw [refill] at hr
  split at hr
  · next hu =>
    dsimp only at hr
    split at hr
    · next hn => exact ⟨hu, if_pos hn⟩
    · cases hr
  · cases hr

theorem Sound.window_nil (h : v.Sound) (hu : v.unread = 0) : v.window = [] :=
  List.length_eq_zero_iff.mp (by rw [h.length_window, hu])

/-- A refill does not move the inlet along the tape. -/
theorem refill_reach (h : v.Sound) (hr : v.refill T = (true, v')) :
    v'.Sound ∧ v.Steady v' ∧ ∀ f, (v'.tape T).reach 4 f = (v.tape T).reach 4 f := by
  by_cases hu : v.unread = 0
  · obtain ⟨hb, ht, hs, hst, -⟩ := refill_load h hu hr
    refine ⟨hs, hst, fun f => ?_⟩
    rw [ht]
    exact (Tape.reach_load (Nat.succ_pos 3) (h.window_nil hu) hb hs.1 f).symm
  · rw [refill_unread hu] at hr
    cases hr
    exact ⟨h, ⟨rfl, rfl, rfl⟩, fun f => rfl⟩

/-- Consuming cells of the window moves the inlet along. -/
theorem drop_reach (h : v.Sound) (f : Nat) :
    ((v.drop f).tape T).reach 4 (f - v.unread) = (v.tape T).reach 4 f := by
  have hl := h.length_window
  have ht : (v.drop f).tape T = ⟨v.window.drop f, (v.tape T).block⟩ := by
    rw [tape, h.window_drop]
    rfl
  rw [ht]
  by_cases hf : f < v.unread
  · have hw : f < (v.tape T).window.length := by rw [show (v.tape T).window = v.window from rfl, hl]; exact hf
    rw [Tape.reach_window hw, Nat.sub_eq_zero_of_le (Nat.le_of_lt hf),
      Tape.reach_window (show 0 < (v.window.drop f).length by rw [List.length_drop]; omega)]
    rfl
  · have hw : (v.tape T).window.length ≤ f := by rw [show (v.tape T).window = v.window from rfl, hl]; omega
    rw [Tape.reach_past hw, show (v.tape T).window.length = v.unread from hl,
      List.drop_eq_nil_of_le (show v.window.length ≤ f by omega)]

/-! ## Skipping to a header -/

/-- What comes of skipping `cnt` cells and then having unread ones, when `r` is what the tape has there. -/
def Sought (T : Transport ρ ω) (v : Inlet ρ) (cnt : Nat) : Option (List Byte × Tape Byte) → Prop
  | none => ∀ v', v.skip T cnt = (true, v') → v.Steady v' ∧ ∃ v'', v'.refill T = (false, v'')
  | some (bs, t) => ∃ v' v'', v.skip T cnt = (true, v') ∧ v'.refill T = (true, v'') ∧ v''.Sound ∧ v.Steady v' ∧
      v'.Steady v'' ∧ v''.window = bs ∧ (v''.drop 4).tape T = t

theorem tape_sound (T : Transport ρ ω) (v : Inlet ρ) : (v.tape T).Sound := fun i h => blocks_sound T _ _ i h

theorem tape_drop (h : v.Sound) : (v.drop 4).tape T = ⟨[], (v.tape T).block⟩ := by
  have hw : (v.drop 4).window = [] := (h.drop 4).window_nil (Nat.sub_eq_zero_of_le h.2)
  rw [tape, hw]
  rfl

theorem skip_sought (h : v.Sound) (cnt : Nat) : Sought T v cnt ((v.tape T).reach 4 cnt) := by
  induction cnt using Nat.strongRecOn generalizing v with
  | ind cnt ih =>
    rcases hr : v.refill T with ⟨ok, v₁⟩
    cases ok with
    | false =>
      obtain ⟨hu, hb⟩ := refill_end hr
      rw [Tape.reach_none (tape_sound T v) (h.window_nil hu) hb cnt]
      intro v' hs
      by_cases h0 : cnt = 0
      · subst h0
        rw [skip_zero] at hs
        cases hs
        exact ⟨⟨rfl, rfl, rfl⟩, v₁, hr⟩
      · rw [skip_refused h0 hr] at hs
        cases hs
    | true =>
      obtain ⟨h₁, hst, hreach⟩ := refill_reach h hr
      have hu := unread_refill T hr
      by_cases h0 : cnt = 0
      · subst h0
        have hw : 0 < (v₁.tape T).window.length := by
          rw [show (v₁.tape T).window = v₁.window from rfl, h₁.length_window]
          omega
        rw [← hreach, Tape.reach_window hw]
        exact ⟨v, v₁, skip_zero, hr, h₁, ⟨rfl, rfl, rfl⟩, hst, rfl, tape_drop h₁⟩
      · -- The refill is followed by a copy, and the rest of the skip starts behind it.
        have hi := ih (cnt - v₁.unread) (by omega) (h₁.drop cnt)
        rw [drop_reach h₁, hreach] at hi
        have hk := skip_next h0 hr
        generalize (v.tape T).reach 4 cnt = r at hi ⊢
        rcases r with _ | ⟨bs, t⟩
        · intro v' hs
          rw [hk] at hs
          obtain ⟨hst₁, hf⟩ := hi v' hs
          exact ⟨hst.trans hst₁, hf⟩
        · obtain ⟨v', v'', hs, hf, h'', hst₁, hst₂, hw, ht⟩ := hi
          exact ⟨v', v'', hk.trans hs, hf, h'', hst.trans hst₁, hst₂, hw, ht⟩

theorem skip_steady (h : v.Sound) {cnt : Nat} (hk : v.skip T cnt = (true, v')) : v.Steady v' := by
  have hs := skip_sought (T := T) h cnt
  generalize (v.tape T).reach 4 cnt = r at hs
  rcases r with _ | ⟨bs, t⟩
  · exact (hs v' hk).1
  · obtain ⟨v₁, -, hk₁, -, -, hst, -⟩ := hs
    rw [hk] at hk₁
    cases hk₁
    exact hst

/-! ## The chain of fragments -/

/-- The bytes of the fragment that a header starts, unless the chain stops at it: a header of zeros is refused, and the
last one has nothing after its fragment. -/
def nextFragment (junk : Word) (bs : List Byte) : Option Nat :=
  let header := overlay (bs.map some) junk
  if header = 0 ∨ header &&& lastFragBit ≠ 0 then none else some (header &&& ~~~lastFragBit).toNat

/-- The chain of fragments behind the one that is being read ends. -/
def ChainEnds (T : Transport ρ ω) (v : Inlet ρ) : Prop := Ends 4 nextFragment v.locals (v.tape T) v.fbtbc

/-- A refill looks at neither the fragment nor the stack. -/
theorem refill_with {ok : Bool} (hr : v.refill T = (ok, v')) (n : Nat) (junk : Nat → Word) :
    { v with fbtbc := n, locals := junk }.refill T = (ok, { v' with fbtbc := n, locals := junk }) := by
  unfold refill at hr ⊢
  dsimp only at hr ⊢
  split at hr
  · next hu =>
    rw [if_pos hu]
    split at hr
    · next hn =>
      cases hr
      rw [if_pos hn]
    · next hn =>
      cases hr
      rw [if_neg hn]
  · next hu =>
    cases hr
    rw [if_neg hu]

theorem open_refused {v₁ v₂ : Inlet ρ} (hr : v₁.refill T = (false, v₂)) :
    ∃ v₃, { v₁ with fbtbc := 0 }.openFragment T = (false, v₃) := by
  have hg : { v₁ with fbtbc := 0, locals := fun n => v₁.locals (n + 1) }.getInput T 4 =
      (false, [], { v₂ with fbtbc := 0, locals := fun n => v₁.locals (n + 1) }) := by
    rw [getInput, if_neg (Nat.succ_ne_zero 3), refill_with hr]
  rw [openFragment, hg]
  exact ⟨_, rfl⟩

/-- Opening the next fragment, once there are unread cells. -/
theorem open_header {v₁ v₂ : Inlet ρ} {junk : Nat → Word} (h₂ : v₂.Sound) (hr : v₁.refill T = (true, v₂))
    (hj : v₁.locals = junk) :
    { v₁ with fbtbc := 0 }.openFragment T =
      let header := overlay (v₂.window.map some) (junk 0)
      let v₃ := { v₂.drop 4 with
        fbtbc := 0, locals := fun n => junk (n + 1), lastFrag := if header &&& lastFragBit = 0 then false else true }
      if header = 0 then (false, v₃) else (true, { v₃ with fbtbc := (header &&& ~~~lastFragBit).toNat }) := by
  subst hj
  have hg : { v₁ with fbtbc := 0, locals := fun n => v₁.locals (n + 1) }.getInput T 4 =
      (true, v₂.window, { v₂.drop 4 with fbtbc := 0, locals := fun n => v₁.locals (n + 1) }) := by
    rw [getInput, if_neg (Nat.succ_ne_zero 3), refill_with hr]
    have ht : v₂.window.take 4 = v₂.window := List.take_of_length_le (by rw [h₂.length_window]; exact h₂.2)
    exact congrArg (fun w => (true, w, _)) ht
  rw [openFragment_eq hg]

/-- A round of `flexxdrrec_skiprecord` that the tape has no header for. -/
theorem skiprecord_cut (h : v.Sound) (hl : v.lastFrag = false) (hr : (v.tape T).reach 4 v.fbtbc = none) (fuel : Nat) :
    ∃ v', v.skiprecord T (fuel + 1) = some (false, v') := by
  have hs := skip_sought (T := T) h v.fbtbc
  rw [hr] at hs
  rcases hk : v.skip T v.fbtbc with ⟨_ | _, v₁⟩
  · exact ⟨v₁, skiprecord_refused (Or.inr hl) hk⟩
  · obtain ⟨hst, v₂, hf⟩ := hs v₁ hk
    obtain ⟨v₃, ho⟩ := open_refused hf
    exact ⟨v₃, skiprecord_closed (Or.inr hl) hk (hst.2.1.trans hl) ho⟩

/-- A round of `flexxdrrec_skiprecord` that the tape has a header for: the header is refused, or the loop goes on behind
it. -/
theorem skiprecord_header (h : v.Sound) (hl : v.lastFrag = false) {bs : List Byte} {t : Tape Byte}
    (hr : (v.tape T).reach 4 v.fbtbc = some (bs, t)) :
    let header := overlay (bs.map some) (v.locals 0)
    (header = 0 ∧ ∀ fuel, ∃ v', v.skiprecord T (fuel + 1) = some (false, v')) ∨
    (header ≠ 0 ∧ ∃ v' : Inlet ρ, v'.Sound ∧ v'.tape T = t ∧ v'.locals = (fun n => v.locals (n + 1)) ∧
      v'.lastFrag = (if header &&& lastFragBit = 0 then false else true) ∧
      v'.fbtbc = (header &&& ~~~lastFragBit).toNat ∧
      ∀ fuel, v.skiprecord T (fuel + 1) = v'.skiprecord T fuel) := by
  have hs := skip_sought (T := T) h v.fbtbc
  rw [hr] at hs
  obtain ⟨v₁, v₂, hk, hf, h₂, hst₁, hst₂, rfl, rfl⟩ := hs
  have ho := open_header h₂ hf hst₁.2.2
  intro header
  by_cases hz : header = 0
  · obtain ⟨v₃, ho'⟩ : ∃ v₃, { v₁ with fbtbc := 0 }.openFragment T = (false, v₃) := ⟨_, ho.trans (if_pos hz)⟩
    exact Or.inl ⟨hz, fun fuel => ⟨v₃, skiprecord_closed (Or.inr hl) hk (hst₁.2.1.trans hl) ho'⟩⟩
  · refine Or.inr ⟨hz, _, ?_, ?_, ?_, ?_, ?_,
      fun fuel => skiprecord_open (Or.inr hl) hk (hst₁.2.1.trans hl) (ho.trans (if_neg hz))⟩
    · exact h₂.drop 4
    · rfl
    · rfl
    · rfl
    · rfl

/-- What is left of the last fragment is skipped in two rounds. -/
theorem skiprecord_lastFrag (h : v.Sound) (hl : v.lastFrag = true) : ∃ r, v.skiprecord T 2 = some r := by
  by_cases hf : v.fbtbc > 0 ∨ v.lastFrag = false
  · rcases hk : v.skip T v.fbtbc with ⟨_ | _, v₁⟩
    · exact ⟨_, skiprecord_refused hf hk⟩
    · have hl₁ : v₁.lastFrag = true := (skip_steady h hk).2.1.trans hl
      refine ⟨_, (skiprecord_last hf hk hl₁).trans (skiprecord_done ?_)⟩
      rintro (h0 | h0)
      · exact Nat.lt_irrefl 0 h0
      · rw [show v₁.lastFrag = false from h0] at hl₁
        cases hl₁
  · exact ⟨_, skiprecord_done hf⟩

theorem chainEnds_of_returns (h : v.Sound) {fuel : Nat} {r : Bool × Inlet ρ} (hr : v.skiprecord T fuel = some r)
    (hl : v.lastFrag = false) : v.ChainEnds T := by
  induction fuel generalizing v with
  | zero => cases hr
  | succ fuel ih =>
    rcases ht : (v.tape T).reach 4 v.fbtbc with _ | ⟨bs, t⟩
    · exact .cut ht
    · rcases skiprecord_header h hl ht with ⟨hz, -⟩ | ⟨hz, v', h', rfl, hloc, hlast, hf, hround⟩
      · exact .stop ht (if_pos (Or.inl hz))
      · by_cases htop : overlay (bs.map some) (v.locals 0) &&& lastFragBit = 0
        · rw [if_pos htop] at hlast
          rw [hround] at hr
          have hrest := ih h' hr hlast
          unfold ChainEnds at hrest
          rw [hloc, hf] at hrest
          exact .more ht (if_neg (not_or.mpr ⟨hz, not_not.mpr htop⟩)) hrest
        · exact .stop ht (if_pos (Or.inr htop))

theorem returns_of_chainEnds (h : v.Sound) (hl : v.lastFrag = false) (hc : v.ChainEnds T) :
    ∃ fuel r, v.skiprecord T fuel = some r := by
  unfold ChainEnds at hc
  generalize hj : v.locals = junk at hc
  generalize ht : v.tape T = t at hc
  generalize hf : v.fbtbc = f at hc
  induction hc generalizing v with
  | cut none =>
    subst ht hf
    obtain ⟨v', hr⟩ := skiprecord_cut h hl none 0
    exact ⟨1, _, hr⟩
  | @stop junk t t' f bs header last =>
    subst hj ht hf
    rcases skiprecord_header h hl header with ⟨-, hr⟩ | ⟨hz, v', h', -, -, hlast, -, hround⟩
    · obtain ⟨v', hr⟩ := hr 0
      exact ⟨1, _, hr⟩
    · -- The header is not refused, so it is the last one.
      have htop : overlay (bs.map some) (v.locals 0) &&& lastFragBit ≠ 0 := by
        intro h0
        rw [nextFragment, if_neg (not_or.mpr ⟨hz, not_not.mpr h0⟩)] at last
        cases last
      rw [if_neg htop] at hlast
      obtain ⟨r, hr⟩ := skiprecord_lastFrag (T := T) h' hlast
      exact ⟨3, r, (hround 2).trans hr⟩
  | @more junk t t' f len bs header length rest ih =>
    subst hj ht hf
    have hn : ¬ (overlay (bs.map some) (v.locals 0) = 0 ∨ overlay (bs.map some) (v.locals 0) &&& lastFragBit ≠ 0) := by
      intro hn
      rw [nextFragment, if_pos hn] at length
      cases length
    rw [nextFragment, if_neg hn] at length
    cases length
    rcases skiprecord_header h hl header with ⟨hz, -⟩ | ⟨-, v', h', ht, hloc, hlast, hf, hround⟩
    · exact absurd (Or.inl hz) hn
    · rw [if_pos (not_not.mp fun h0 => hn (Or.inr h0))] at hlast
      obtain ⟨fuel, r, hr⟩ := ih h' hlast hloc ht hf
      exact ⟨fuel + 1, r, (hround fuel).trans hr⟩

/-- **`flexxdrrec_skiprecord` returns exactly when the chain of fragments ends.** -/
theorem skiprecord_returns_iff (h : v.Sound) :
    (∃ fuel r, v.skiprecord T fuel = some r) ↔ v.lastFrag = true ∨ v.ChainEnds T := by
  cases hl : v.lastFrag with
  | true =>
    obtain ⟨r, hr⟩ := skiprecord_lastFrag (T := T) h hl
    exact iff_of_true ⟨2, r, hr⟩ (Or.inl rfl)
  | false =>
    constructor
    · rintro ⟨fuel, r, hr⟩
      exact Or.inr (chainEnds_of_returns h hr hl)
    · rintro (h0 | hc)
      · cases h0
      · exact returns_of_chainEnds h hl hc

end Inlet

/-! ## The receive loops -/

/-- **The receive loops end**: `flexxdrrec_getlong` and `flexxdrrec_getbytes` always, and `flexxdrrec_skiprecord` within the
last fragment of a record and where the chain of fragments ends. -/
theorem receive_returns_iff {T : Transport ρ ω} {s : RecStrm ρ ω} (h : Reached T s) (o : TakeOp) :
    (∃ fuel r, o.op.call fuel T s = some r) ↔
      (o = .skiprecord → s.lastFrag = true ∨ s.inlet.ChainEnds T) := by
  cases o with
  | getlong => exact iff_of_true ⟨0, _, rfl⟩ fun ho => by cases ho
  | getbytes len => exact iff_of_true ⟨0, _, rfl⟩ fun ho => by cases ho
  | skiprecord =>
    have hiff := Inlet.skiprecord_returns_iff (T := T) h.placed.sound
    constructor
    · rintro ⟨fuel, r, hr⟩ -
      have hi := (call_inlet (T := T) h.placed fuel .skiprecord).1
      rw [hr] at hi
      obtain ⟨r', hr', -⟩ := Option.map_eq_some_iff.mp hi
      exact hiff.mp ⟨fuel, r', hr'⟩
    · intro hc
      obtain ⟨fuel, r, hr⟩ := hiff.mpr (hc rfl)
      have hi := (call_inlet (T := T) h.placed fuel .skiprecord).1
      rw [Inlet.call, hr] at hi
      obtain ⟨r', hr', -⟩ := Option.map_eq_some_iff.mp hi.symm
      exact ⟨fuel, r', hr'⟩

/-- A peer that sends what it has and closes: `readit` stores what is left, and then nothing, and returns how much it
stored. -/
def hangup : Transport (List Byte) Unit where
  readit r n := (r.take n, (r.take n).length, r.drop n)
  length_readit r n := by
    rw [List.length_take]
    exact Nat.min_le_left _ _
  writeit _ _ := (0, ())

theorem hangup_closed : hangup.readit [] 4 = ([], 0, []) := rfl

/-- A new stream whose first record was opened. -/
def openedStream (bs : List Byte) : RecStrm (List Byte) Unit :=
  { flexxdrrecCreate 0 0 0 (fun _ => 0) bs () (fun _ => 0) with lastFrag := false }

theorem openedStream_reached (bs : List Byte) : Reached hangup (openedStream bs) :=
  ⟨0, 0, 0, fun _ => 0, bs, (), fun _ => 0, 1, [.skiprecord], rfl⟩

theorem openedStream_window (bs : List Byte) : ((openedStream bs).inlet.tape hangup).window = [] :=
  create_window 0 0 0 (fun _ => 0) bs () fun _ => 0

/-- A peer that sends one word and closes: the word again and again. -/
theorem hangup_blocks (w : Word) {cells : List Byte} (hc : cells.length = 4) (i : Nat) :
    Inlet.blocks hangup cells (toBytes w) i = some (toBytes w) := by
  have hn : ¬ (hangup.readit (toBytes w) 4).2.1 = -1 := by
    rw [show (hangup.readit (toBytes w) 4).2.1 = 4 from rfl]
    decide
  have hd : toBytes w ++ cells.drop 4 = toBytes w := by
    rw [List.drop_eq_nil_of_le (Nat.le_of_eq hc), List.append_nil]
  cases i with
  | zero =>
    rw [Inlet.blocks, if_neg hn]
    exact congrArg some hd
  | succ i =>
    rw [Inlet.blocks_succ, if_neg hn]
    exact (congrArg (Inlet.blocks hangup · [] i) hd).trans (Inlet.blocks_closed hangup_closed _ i)

theorem openedStream_block (w : Word) (i : Nat) :
    ((openedStream (toBytes w)).inlet.tape hangup).block i = some (toBytes w) :=
  hangup_blocks w (Heap.length_load _ _ _) i

/-- A peer that sends the header of a last fragment. -/
theorem receive_returns_opened :
    ∃ fuel r, TakeOp.skiprecord.op.call fuel hangup (openedStream (toBytes lastFragBit)) = some r := by
  refine (receive_returns_iff (openedStream_reached _) .skiprecord).mpr fun _ => Or.inr ?_
  have hr : ((openedStream (toBytes lastFragBit)).inlet.tape hangup).reach 4 0 = _ :=
    Tape.reach_nil (openedStream_window (toBytes lastFragBit)) 0
  rw [openedStream_block] at hr
  exact Ends.stop hr (by decide)

/-- A peer that sends the header of a fragment of four bytes, and closes: every number of rounds is too few. -/
theorem skiprecord_endless : Reached hangup (openedStream (toBytes 4)) ∧
    ∀ fuel, flexxdrrecSkiprecord hangup (openedStream (toBytes 4)) fuel = none := by
  have hreached := openedStream_reached (toBytes 4)
  have hp := hreached.placed
  have hnext (junk : Word) : Inlet.nextFragment junk (toBytes 4) = some 4 := by
    unfold Inlet.nextFragment
    rw [overlay_word]
    decide
  have hne : ¬ (openedStream (toBytes 4)).inlet.ChainEnds hangup :=
    not_ends_repeat (Nat.dvd_refl 4) hnext (openedStream_window (toBytes 4)) (openedStream_block 4) (Nat.dvd_zero 4)
  refine ⟨hreached, fun fuel => ?_⟩
  rcases hr : flexxdrrecSkiprecord hangup (openedStream (toBytes 4)) fuel with _ | r
  · rfl
  · obtain ⟨hi, -⟩ := hp.skiprecord (T := hangup) fuel
    rw [hr] at hi
    exact absurd (Inlet.chainEnds_of_returns hp.sound hi rfl) hne

end Cornflakes.Flexrpc

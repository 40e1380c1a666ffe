import Mathlib.Data.Stream.Init
import Cornflakes.Flexrpc.Inlet

/-!
# What an inlet has ahead

When `readit` supplies what it is asked for, the unread cells and the blocks to come are one string of bytes, which a
copy within the window, a skip and a header that starts a block take from in order. An inlet is `At` a place of a record
when that string is the rest of the fragment, the later fragments, and what follows the record.
-/

set_option autoImplicit false

namespace Cornflakes.Flexrpc

open Wire

variable {ρ ω : Type}

namespace Transport

/-- Every call of `readit` supplies exactly what is asked for. -/
structure Exact (T : Transport ρ ω) : Prop where
  length : ∀ r n, (T.readit r n).1.length = n
  result : ∀ r n, (T.readit r n).2.1 = n

variable (T : Transport ρ ω)

/-- The bytes of the next `k` calls that ask for four. -/
def supply : ρ → Nat → List Byte
  | _, 0 => []
  | r, k + 1 => (T.readit r 4).1 ++ supply (T.readit r 4).2.2 k

/-- The reader after these calls. -/
def after : ρ → Nat → ρ
  | r, 0 => r
  | r, k + 1 => after (T.readit r 4).2.2 k

end Transport

namespace Inlet

variable (T : Transport ρ ω) (v v' : Inlet ρ)

/-- Four cells, and not more unread. -/
def Sound : Prop := v.cells.length = 4 ∧ v.unread ≤ 4

/-- What one copy can give. -/
def room : Nat := if v.unread = 0 then 4 else v.unread

/-- Only the window and the reader have changed. -/
def Steady : Prop := v'.fbtbc = v.fbtbc ∧ v'.lastFrag = v.lastFrag ∧ v'.locals = v.locals

/-- The bytes `w` come next, and with them the reader becomes `e`. -/
def Ahead (w : List Byte) (e : ρ) : Prop := ∃ k, v.window ++ T.supply v.reader k = w ∧ T.after v.reader k = e

variable {T v v'}

theorem Sound.length_window (h : v.Sound) : v.window.length = v.unread := by
  have hc := h.1
  have hu := h.2
  rw [window, List.length_drop]
  omega

theorem Sound.drop (h : v.Sound) (n : Nat) : (v.drop n).Sound := ⟨h.1, Nat.le_trans (Nat.sub_le _ _) h.2⟩

theorem Sound.window_drop (h : v.Sound) (n : Nat) : (v.drop n).window = v.window.drop n := by
  have hc := h.1
  have hu := h.2
  simp only [window, Inlet.drop, List.drop_drop]
  by_cases hn : n ≤ v.unread
  · rw [show 4 - (v.unread - n) = 4 - v.unread + n by omega]
  · rw [List.drop_eq_nil_of_le (by omega), List.drop_eq_nil_of_le (by omega)]

theorem room_pos : 0 < v.room := by
  unfold room
  split <;> omega

theorem Steady.trans {v'' : Inlet ρ} (h : v.Steady v') (h' : v'.Steady v'') : v.Steady v'' :=
  ⟨h'.1.trans h.1, h'.2.1.trans h.2.1, h'.2.2.trans h.2.2⟩

/-! ## The pieces of a call -/

theorem refill_exact (hx : T.Exact) (h : v.Sound) : ∃ v', v.refill T = (true, v') ∧ v'.Sound ∧ v.Steady v' ∧
    v'.unread = v.room ∧ ∀ w e, w ≠ [] → v.Ahead T w e → v'.Ahead T w e := by
  by_cases hu : v.unread = 0
  · have hl := hx.length v.reader 4
    have hn : ¬ (T.readit v.reader 4).2.1 = -1 := by
      rw [hx.result]
      omega
    refine ⟨⟨(T.readit v.reader 4).1 ++ v.cells.drop (T.readit v.reader 4).1.length, 4, v.fbtbc, v.lastFrag,
      (T.readit v.reader 4).2.2, v.locals⟩, ?_, ⟨?_, Nat.le_refl 4⟩, ⟨rfl, rfl, rfl⟩, ?_, ?_⟩
    · rw [refill, if_pos hu]
      exact if_neg hn
    · rw [List.length_append, List.length_drop, hl, h.1]
    · rw [room, if_pos hu]
    · rintro w e hw ⟨k, hk, he⟩
      have hwin : v.window = [] := List.length_eq_zero_iff.mp (by rw [h.length_window, hu])
      rw [hwin, List.nil_append] at hk
      cases k with
      | zero => exact absurd hk.symm hw
      | succ k =>
        refine ⟨k, ?_, he⟩
        rw [← hk, Transport.supply, window, Nat.sub_self, List.drop_zero, hl, ← h.1, List.drop_length,
          List.append_nil]
  · refine ⟨v, refill_unread hu, h, ⟨rfl, rfl, rfl⟩, ?_, fun w e _ ha => ha⟩
    rw [room, if_neg hu]

/-- Dropping from the window drops from what is ahead. -/
theorem Ahead.drop {w : List Byte} {e : ρ} {n : Nat} (h : v.Sound) (ha : v.Ahead T w e) (hn : n ≤ v.unread) :
    w.take n = v.window.take n ∧ (v.drop n).Ahead T (w.drop n) e := by
  obtain ⟨k, rfl, he⟩ := ha
  have hl : n ≤ v.window.length := by rwa [h.length_window]
  refine ⟨List.take_append_of_le_length hl, k, ?_, he⟩
  rw [h.window_drop, List.drop_append_of_le_length hl]
  rfl

theorem getInput_exact (hx : T.Exact) (h : v.Sound) {n : Nat} (hn : n ≠ 0) : ∃ bs v', v.getInput T n = (true, bs, v') ∧
    v'.Sound ∧ v.Steady v' ∧ bs.length = min n v.room ∧ v'.unread = v.room - n ∧
    ∀ w e, w ≠ [] → v.Ahead T w e → bs = w.take (min n v.room) ∧ v'.Ahead T (w.drop (min n v.room)) e := by
  obtain ⟨v₁, hr, h₁, hs, hu, ha⟩ := refill_exact hx h
  have hd : v₁.drop n = v₁.drop (min n v.room) := by
    simp only [Inlet.drop, hu]
    congr 1
    omega
  refine ⟨v₁.window.take n, v₁.drop n, ?_, h₁.drop n, hs, ?_, ?_, ?_⟩
  · rw [getInput, if_neg hn, hr]
  · rw [List.length_take, h₁.length_window, hu]
  · rw [Inlet.drop, hu]
  · intro w e hw hv
    obtain ⟨ht, hv'⟩ := (ha w e hw hv).drop h₁ (n := min n v.room) (by omega)
    refine ⟨?_, by rwa [hd]⟩
    rw [ht, List.take_eq_take_min, h₁.length_window, hu]

theorem skip_exact (hx : T.Exact) (h : v.Sound) {w : List Byte} {e : ρ} {cnt : Nat} (ha : v.Ahead T w e)
    (hc : cnt ≤ w.length) : ∃ v', v.skip T cnt = (true, v') ∧ v'.Sound ∧ v.Steady v' ∧
      (v'.unread + cnt) % 4 = v.unread % 4 ∧ v'.Ahead T (w.drop cnt) e := by
  induction cnt using Nat.strongRecOn generalizing v w with
  | ind cnt ih =>
    by_cases h0 : cnt = 0
    · subst h0
      exact ⟨v, skip_zero, h, ⟨rfl, rfl, rfl⟩, rfl, ha⟩
    · have hw : w ≠ [] := by
        rintro rfl
        exact h0 (Nat.le_zero.mp hc)
      obtain ⟨v₁, hr, h₁, hs, hu, ha₁⟩ := refill_exact hx h
      have hpos : 0 < v₁.unread := hu ▸ room_pos
      have hmod : v₁.unread % 4 = v.unread % 4 := by
        rw [hu, room]
        split <;> omega
      have hd : v₁.drop cnt = v₁.drop (min cnt v₁.unread) := by
        simp only [Inlet.drop]
        congr 1
        omega
      obtain ⟨-, hv⟩ := (ha₁ w e hw ha).drop h₁ (Nat.min_le_right cnt v₁.unread)
      rw [skip_next h0 hr, hd]
      have hlen : cnt - v₁.unread ≤ (w.drop (min cnt v₁.unread)).length := by
        rw [List.length_drop]
        omega
      obtain ⟨v', hk, h', hs', hm, ha'⟩ := ih (cnt - v₁.unread) (by omega) (h₁.drop _) hv hlen
      refine ⟨v', hk, h', (hs.trans hs' : _), ?_, ?_⟩
      · have hu' : (v₁.drop (min cnt v₁.unread)).unread = v₁.unread - min cnt v₁.unread := rfl
        omega
      · rw [List.drop_drop, show min cnt v₁.unread + (cnt - v₁.unread) = cnt by omega] at ha'
        exact ha'

/-! ## Headers -/

/-- What `set_input_fragment` makes of the bytes it got. -/
theorem openFragment_eq {bs : List Byte}
    (h : { v with locals := fun n => v.locals (n + 1) }.getInput T 4 = (true, bs, v')) :
    v.openFragment T =
      let header := overlay (bs.map some) (v.locals 0)
      let v' := { v' with lastFrag := if header &&& lastFragBit = 0 then false else true }
      if header = 0 then (false, v') else (true, { v' with fbtbc := (header &&& ~~~lastFragBit).toNat }) := by
  rw [openFragment, h]

theorem openFragment_rest {bs : List Byte} {v'' : Inlet ρ} {ok : Bool}
    (h : { v with locals := fun n => v.locals (n + 1) }.getInput T 4 = (true, bs, v'))
    (ho : v.openFragment T = (ok, v'')) : v''.cells = v'.cells ∧ v''.unread = v'.unread ∧ v''.reader = v'.reader := by
  rw [openFragment_eq h] at ho
  dsimp only at ho
  split at ho
  · cases ho
    exact ⟨rfl, rfl, rfl⟩
  · cases ho
    exact ⟨rfl, rfl, rfl⟩

theorem openFragment_header {bs : List Byte} {last : Bool} {n : Nat} (hn : n < 2 ^ 31) (hne : last = false → n ≠ 0)
    (h : { v with locals := fun n => v.locals (n + 1) }.getInput T 4 = (true, bs, v'))
    (hbs : bs = toBytes (header last n)) :
    v.openFragment T = (true, { v' with lastFrag := last, fbtbc := n }) := by
  have hz : ¬ header last n = 0 := by
    rw [header_eq_zero_iff last hn]
    rintro ⟨hl, h0⟩
    exact hne hl h0
  have hl : (if header last n &&& lastFragBit = 0 then false else true) = last := by
    cases last with
    | true => exact if_neg fun h0 => by cases (header_top true hn).mp h0
    | false => exact if_pos ((header_top false hn).mpr rfl)
  have hlow : (header last n &&& ~~~lastFragBit).toNat = n := header_low last hn
  rw [openFragment_eq h, hbs, overlay_word]
  simp only [hl, hlow]
  exact if_neg hz

/-! ## Places of a record -/

/-- `pos` bytes past the start of a block the inlet stands in a record: `cur` is left of the fragment, `later` are the
fragments after it, and then comes `w`, with which the reader becomes `e`. -/
structure At (T : Transport ρ ω) (e : ρ) (v : Inlet ρ) (pos : Nat) (cur : List Byte) (later : List (List Byte))
    (w : List Byte) : Prop where
  sound : v.Sound
  block : (pos + v.unread) % 4 = 0
  fbtbc : v.fbtbc = cur.length
  last : v.lastFrag = later.isEmpty
  ahead : v.Ahead T (cur ++ (record later ++ w)) e

/-- At the end of a fragment the next header comes first. -/
theorem header_ahead (p : List Byte) (later : List (List Byte)) (w : List Byte) : [] ++ (record (p :: later) ++ w) =
    toBytes (header later.isEmpty p.length) ++ (p ++ (record later ++ w)) := by
  rw [List.nil_append, record_cons, fragment, List.append_assoc, List.append_assoc]

theorem header_ahead_ne_nil (p : List Byte) (later : List (List Byte)) (w : List Byte) :
    [] ++ (record (p :: later) ++ w) ≠ [] := by
  intro h0
  have hlen := congrArg List.length (header_ahead p later w)
  rw [h0, List.length_append, length_toBytes, List.length_nil] at hlen
  omega

namespace At

variable {e : ρ} {pos : Nat} {cur : List Byte} {later : List (List Byte)} {w : List Byte}

theorem room (h : At T e v pos cur later w) : v.room = 4 - pos % 4 := by
  have hu := h.sound.2
  have hb := h.block
  unfold Inlet.room
  split <;> omega

/-- A copy that stays in the block. -/
theorem copy (hx : T.Exact) (h : At T e v pos cur later w) {n : Nat} (hn : n ≠ 0) (hc : n ≤ cur.length)
    (hb : pos % 4 + n ≤ 4) : ∃ v', v.getInput T n = (true, cur.take n, v') ∧ v.Steady v' ∧
      At T e { v' with fbtbc := v.fbtbc - n } (pos + n) (cur.drop n) later w := by
  obtain ⟨bs, v', hg, h', hs, -, hu, ha⟩ := getInput_exact hx h.sound hn
  have hr := h.room
  have hw : cur ++ (record later ++ w) ≠ [] := by
    intro h0
    rw [(List.append_eq_nil_iff.mp h0).1] at hc
    exact hn (Nat.le_zero.mp hc)
  obtain ⟨rfl, ha'⟩ := ha _ e hw h.ahead
  rw [show min n v.room = n by omega, List.take_append_of_le_length hc] at hg
  rw [show min n v.room = n by omega, List.drop_append_of_le_length hc] at ha'
  have hblock := h.block
  have hf := h.fbtbc
  refine ⟨v', hg, hs, h', ?_, ?_, hs.2.1.trans h.last, ha'⟩
  · show (pos + n + v'.unread) % 4 = 0
    omega
  · rw [List.length_drop, hf]

/-- A header that starts a block. -/
theorem openFragment (hx : T.Exact) {p : List Byte} (h : At T e v pos [] (p :: later) w) (hp : Sendable (p :: later))
    (hb : pos % 4 = 0) : ∃ v', v.openFragment T = (true, v') ∧ At T e v' (pos + 4) p later w := by
  have hlen : (toBytes (header later.isEmpty p.length)).length = 4 := length_toBytes _
  obtain ⟨bs, v', hg, h', hs, -, hu, ha⟩ :=
    getInput_exact (v := { v with locals := fun n => v.locals (n + 1) }) hx h.sound (Nat.succ_ne_zero 3)
  have hr : ({ v with locals := fun n => v.locals (n + 1) } : Inlet ρ).room = 4 := by
    rw [show ({ v with locals := fun n => v.locals (n + 1) } : Inlet ρ).room = v.room from rfl, h.room, hb]
  obtain ⟨hbs, ha'⟩ := ha _ e (header_ahead_ne_nil p later w) h.ahead
  rw [hr, header_ahead, Nat.min_self, List.take_left' hlen] at hbs
  rw [hr, header_ahead, Nat.min_self, List.drop_left' hlen] at ha'
  have hempty : later.isEmpty = false → p.length ≠ 0 := fun hl h0 =>
    hp.head_ne_nil (by rintro rfl; cases hl) (List.length_eq_zero_iff.mp h0)
  have hblock := h.block
  refine ⟨_, openFragment_header hp.head hempty hg hbs, h', ?_, rfl, rfl, ha'⟩
  show (pos + 4 + v'.unread) % 4 = 0
  rw [hu, hr]
  omega

/-- Skipping what is left of the fragment. -/
theorem skip (hx : T.Exact) (h : At T e v pos cur later w) : ∃ v', v.skip T v.fbtbc = (true, v') ∧
    v'.lastFrag = v.lastFrag ∧ At T e { v' with fbtbc := 0 } (pos + cur.length) [] later w := by
  have hc : v.fbtbc ≤ (cur ++ (record later ++ w)).length := by
    rw [h.fbtbc, List.length_append]
    exact Nat.le_add_right _ _
  obtain ⟨v', hk, h', hs, hu, ha⟩ := skip_exact hx h.sound h.ahead hc
  rw [h.fbtbc, List.drop_left] at ha
  have hblock := h.block
  have hf := h.fbtbc
  refine ⟨v', hk, hs.2.1, h', ?_, rfl, hs.2.1.trans h.last, ha⟩
  show (pos + cur.length + v'.unread) % 4 = 0
  omega

end At

/-! ## Requests -/

section Requests

variable {e : ρ} {pos len : Nat} {cur p : List Byte} {later : List (List Byte)} {w : List Byte}

/-- A request that the fragment can meet. -/
theorem getbytes_fragment (hx : T.Exact) (h : At T e v pos cur later w) (hl : len ≤ cur.length)
    (hb : pos % 4 + len ≤ 4) : ∃ v', v.getbytes T len = (true, (cur.take len).map some, v') ∧
      At T e v' (pos + len) (cur.drop len) later w := by
  by_cases h0 : len = 0
  · subst h0
    exact ⟨v, getbytes_zero, h⟩
  · obtain ⟨v', hg, hs, h'⟩ := h.copy hx h0 hl hb
    have hf := h.fbtbc
    have hmin : min len v.fbtbc = len := by omega
    refine ⟨_, ?_, h'⟩
    rw [getbytes_next h0 (by omega) (by rw [hmin]; exact hg), hmin, Nat.sub_self, getbytes_zero,
      List.length_take, Nat.min_eq_left hl]
    simp

/-- A request that takes all of the fragment and goes on. -/
theorem getbytes_across (hx : T.Exact) (h : At T e v pos cur later w) (hl : cur.length < len)
    (hb : pos % 4 + cur.length ≤ 4) : ∃ v', At T e v' (pos + cur.length) [] later w ∧
      v.getbytes T len = ((v'.getbytes T (len - cur.length)).1, cur.map some ++ (v'.getbytes T (len - cur.length)).2.1,
        (v'.getbytes T (len - cur.length)).2.2) := by
  by_cases h0 : cur = []
  · subst h0
    exact ⟨v, h, rfl⟩
  · have hc : cur.length ≠ 0 := fun hc => h0 (List.length_eq_zero_iff.mp hc)
    obtain ⟨v', hg, hs, h'⟩ := h.copy hx hc (Nat.le_refl _) hb
    have hf := h.fbtbc
    have hmin : min len v.fbtbc = cur.length := by omega
    rw [List.take_length] at hg
    rw [List.drop_length] at h'
    refine ⟨_, h', ?_⟩
    rw [getbytes_next (by omega) (by omega) (by rw [hmin]; exact hg), hmin, Nat.sub_self]
    simp

/-- At the end of a fragment the next one is opened. -/
theorem getbytes_header (hx : T.Exact) (h : At T e v pos [] (p :: later) w) (hp : Sendable (p :: later))
    (hl : len ≠ 0) (hb : pos % 4 = 0) : ∃ v', At T e v' (pos + 4) p later w ∧ v.getbytes T len = v'.getbytes T len := by
  obtain ⟨v', ho, h'⟩ := h.openFragment hx hp hb
  have hlast : ¬ v.lastFrag = true := by
    rw [h.last]
    simp
  exact ⟨v', h', getbytes_open hl h.fbtbc hlast ho⟩

end Requests

/-- `flexxdrrec_skiprecord` stops where a record is to be opened. -/
theorem skiprecord_opened {fuel : Nat} (h : v.skiprecord T fuel = some (true, v')) :
    v'.fbtbc = 0 ∧ v'.lastFrag = false := by
  induction fuel generalizing v with
  | zero => cases h
  | succ fuel ih =>
    by_cases hg : v.fbtbc > 0 ∨ v.lastFrag = false
    · rcases hs : v.skip T v.fbtbc with ⟨ok, v₁⟩
      cases ok with
      | false =>
        rw [skiprecord_refused hg hs] at h
        cases h
      | true =>
        cases hl : v₁.lastFrag with
        | true =>
          rw [skiprecord_last hg hs hl] at h
          exact ih h
        | false =>
          rcases ho : { v₁ with fbtbc := 0 }.openFragment T with ⟨ok₂, v₂⟩
          cases ok₂ with
          | false =>
            rw [skiprecord_closed hg hs hl ho] at h
            cases h
          | true =>
            rw [skiprecord_open hg hs hl ho] at h
            exact ih h
    · rw [skiprecord_done hg] at h
      cases h
      exact ⟨Nat.le_zero.mp (Nat.not_lt.mp fun hn => hg (Or.inl hn)), rfl⟩

end Inlet

/-! ## The stream of the source -/

theorem Placed.sound {s : RecStrm ρ ω} (h : Placed s) : s.inlet.Sound := by
  have ha : s.inBoundary ≤ s.inFinger + 4 := h.1.1.ahead
  refine ⟨Heap.length_load _ _ _, ?_⟩
  show (s.inBoundary - s.inFinger).toNat ≤ 4
  omega

/-- A record that has just been opened. -/
theorem opened_at {T : Transport ρ ω} {s₀ s : RecStrm ρ ω} {fuel k off : Nat} {ps : List (List Byte)}
    {w : List Byte} (h : Placed s₀) (hs : flexxdrrecSkiprecord T s₀ fuel = some (true, s))
    (hoff : (off + s.inlet.unread) % 4 = 0) (hps : ps ≠ [])
    (hw : record ps ++ w = s.inlet.window ++ T.supply s.reader k) :
    Placed s ∧ Inlet.At T (T.after s.reader k) s.inlet off [] ps w := by
  obtain ⟨hi, hp⟩ := h.skiprecord (T := T) fuel
  rw [hs] at hi
  obtain ⟨hf, hl⟩ := Inlet.skiprecord_opened hi
  refine ⟨hp _ hs, (hp _ hs).sound, hoff, hf, ?_, k, hw.symm, rfl⟩
  rw [hl]
  cases ps with
  | nil => exact absurd rfl hps
  | cons p ps => rfl

/-! ## An endless stream -/

/-- A transport that supplies the bytes of an endless stream. -/
def flow : Transport (Stream' Byte) Unit where
  readit x n := (x.take n, n, x.drop n)
  length_readit x n := Nat.le_of_eq (Stream'.length_take n x)
  writeit _ _ := (0, ())

theorem flow_exact : flow.Exact := ⟨fun x n => Stream'.length_take n x, fun _ _ => rfl⟩

theorem flow_supply (x : Stream' Byte) (k : Nat) : flow.supply x k = x.take (4 * k) := by
  induction k generalizing x with
  | zero => rfl
  | succ k ih => rw [Transport.supply, show 4 * (k + 1) = 4 + 4 * k by omega, Stream'.take_add, ← ih]; rfl

theorem flow_ahead (w : List Byte) (x : Stream' Byte) : w <+: flow.supply (w ++ₛ x) w.length := by
  rw [flow_supply, show 4 * w.length = w.length + 3 * w.length by omega, ← Stream'.append_take]
  exact List.prefix_append _ _

theorem flow_whole {w : List Byte} {k : Nat} (x : Stream' Byte) (h : w.length = 4 * k) :
    flow.supply (w ++ₛ x) k = w := by
  have ht := Stream'.append_take (x := w) (a := x) (n := 0)
  rw [Stream'.take_zero, List.append_nil, Nat.add_zero, h] at ht
  rw [flow_supply, ← ht]

end Cornflakes.Flexrpc

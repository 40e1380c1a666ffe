import Mathlib.Data.Nat.Find
import Mathlib.Tactic.IntervalCases
import Cornflakes.Flexrpc.Feed

/-!
# Cutting the byte stream

A transport may give fewer bytes than it is asked for, and cut the same stream of bytes in different places. Since
`fill_input_buf` takes four bytes to be there whatever `readit` returned, the cells that a short piece leaves as they
were are read as bytes of the stream. So receiving depends on the cutting. It gives the same where every call of
`readit` that is made leaves the same four cells (`FilledAlike`), as two transports do that cut the stream in the same
places up to there; and transports that part at any call are told apart by some stream (`sameReceived`).
-/

set_option autoImplicit false

namespace Cornflakes.Flexrpc

open Wire

/-- How many bytes the calls of `readit` give, which all ask for four. -/
@[ext] structure Cutting where
  size : Nat → Nat
  pos : ∀ i, 0 < size i
  le : ∀ i, size i ≤ 4

/-- The transport that gives an endless stream in these pieces; its reader is what is left of the stream and the number
of the call. -/
def cut (a : Cutting) : Transport (Stream' Byte × Nat) Unit where
  readit r n := (r.1.take (min (a.size r.2) n), (min (a.size r.2) n : Nat), (r.1.drop (min (a.size r.2) n), r.2 + 1))
  length_readit r n := by
    rw [Stream'.length_take]
    exact Nat.min_le_right _ _
  writeit _ bs := (bs.length, ())

/-- The calls return, with the results `rs`. -/
def Returns {ρ ω : Type} (T : Transport ρ ω) (s : RecStrm ρ ω) (os : List TakeOp) (rs : List RecResult) : Prop :=
  ∃ n, ∀ fuel, n ≤ fuel → (outputs (takeStep fuel T) s os).map Prod.fst = some rs

/-- Where the piece of call `i` begins in the stream. -/
def start (a : Cutting) : Nat → Nat
  | 0 => 0
  | i + 1 => start a i + a.size i

/-- The four cells after the piece that call `i` gives. -/
def filled (a : Cutting) (x : Stream' Byte) (i : Nat) (cells : List Byte) : List Byte :=
  x.take (a.size i) ++ cells.drop (a.size i)

/-- The four cells after the first calls. -/
def cellsAfter (a : Cutting) (x : Stream' Byte) (cells : List Byte) : Nat → List Byte
  | 0 => cells
  | i + 1 => filled a (x.drop (start a i)) i (cellsAfter a x cells i)

section Same

variable (a b : Cutting) (s : RecStrm (Stream' Byte × Nat) Unit) (os : List TakeOp)

/-- Both transports give the same results. -/
def SameReceived : Prop := ∀ rs, Returns (cut a) s os rs ↔ Returns (cut b) s os rs

/-- Where the calls return, each call of `readit` that was made leaves the same cells for both transports. -/
def FilledAlike : Prop := ∀ fuel rs s',
  outputs (takeStep fuel (cut a)) s os = some (rs, s') ∨ outputs (takeStep fuel (cut b)) s os = some (rs, s') →
    ∀ i ≤ s'.reader.2, cellsAfter a s.reader.1 (s.mem.load s.inBase 4) i =
      cellsAfter b s.reader.1 (s.mem.load s.inBase 4) i

end Same

/-! ## One call of `readit` -/

theorem cut_readit (a : Cutting) (x : Stream' Byte) (i : Nat) :
    (cut a).readit (x, i) 4 = (x.take (a.size i), (a.size i : Int), (x.drop (a.size i), i + 1)) := by
  simp only [cut, Nat.min_eq_left (a.le i)]

/-- The header of an empty last fragment. -/
def emptyLast : List Byte := toBytes (header true 0)

/-- Bytes of which only one, after `m` others, is not zero. -/
def mark (m : Nat) : Stream' Byte := List.replicate m 0 ++ₛ Stream'.cons 1 (Stream'.const 0)

/-- A piece that ends before that byte makes a header of zero. -/
theorem mark_missed {m : Nat} (h₀ : 0 < m) (h₁ : m < 4) : (mark m).take m ++ emptyLast.drop m = toBytes 0 := by
  interval_cases m
  · rfl
  · rfl
  · rfl

/-- A piece that reaches it makes the header of a fragment. -/
theorem mark_seen {m n : Nat} (h₀ : 0 < m) (h₁ : m < n) (h₂ : n ≤ 4) :
    (mark m).take n ++ emptyLast.drop n = toBytes (header false (2 ^ (8 * (3 - m)))) := by
  have h₃ : m < 4 := Nat.lt_of_lt_of_le h₁ h₂
  interval_cases m
  all_goals interval_cases n
  all_goals rfl

namespace Inlet

variable {v v' : Inlet (Stream' Byte × Nat)} {a b : Cutting} {x : Stream' Byte} {i : Nat}

theorem refill_cut (hu : v.unread = 0) (hr : v.reader = (x, i)) : v.refill (cut a) =
    (true, ⟨filled a x i v.cells, 4, v.fbtbc, v.lastFrag, (x.drop (a.size i), i + 1), v.locals⟩) := by
  rw [refill, if_pos hu, hr, cut_readit]
  simp only [Stream'.length_take]
  rw [if_neg (by omega)]
  rfl

theorem getInput_cut (hu : v.unread = 0) (hr : v.reader = (x, i)) {n : Nat} (hn : n ≠ 0) : v.getInput (cut a) n =
    (true, (filled a x i v.cells).take n,
      ⟨filled a x i v.cells, 4 - n, v.fbtbc, v.lastFrag, (x.drop (a.size i), i + 1), v.locals⟩) := by
  rw [getInput, if_neg hn, refill_cut hu hr]
  rfl

/-! ## Calls of two transports -/

/-- The inlet has its cells and its reader from the calls of `readit` that were made. -/
structure Fed (a : Cutting) (x : Stream' Byte) (cells : List Byte) (v : Inlet (Stream' Byte × Nat)) : Prop where
  cells : v.cells = cellsAfter a x cells v.reader.2
  reader : v.reader.1 = x.drop (start a v.reader.2)

/-- The inlet that another transport feeds, at the same call. -/
def onto (b : Cutting) (x : Stream' Byte) (v : Inlet (Stream' Byte × Nat)) : Inlet (Stream' Byte × Nat) :=
  { v with reader := (x.drop (start b v.reader.2), v.reader.2) }

/-- From `v` to `v'` further calls are made; and while no more than `n` are, the other transport goes along. -/
structure Follows (a b : Cutting) (x : Stream' Byte) (cells : List Byte) (n : Nat)
    (v v' : Inlet (Stream' Byte × Nat)) (p : Prop) : Prop where
  onward : v.reader.2 ≤ v'.reader.2
  along : v.Fed a x cells → v'.reader.2 ≤ n → p ∧ v'.Fed a x cells

section Follows

variable {cells : List Byte} {n : Nat} {v'' : Inlet (Stream' Byte × Nat)} {p q r : Prop}

theorem Follows.trans (h : Follows a b x cells n v v' p) (h' : Follows a b x cells n v' v'' q) (hr : p → q → r) :
    Follows a b x cells n v v'' r := by
  refine ⟨Nat.le_trans h.onward h'.onward, fun hf hle => ?_⟩
  obtain ⟨hp, hf'⟩ := h.along hf (Nat.le_trans h'.onward hle)
  obtain ⟨hq, hf''⟩ := h'.along hf' hle
  exact ⟨hr hp hq, hf''⟩

theorem Follows.imp (h : Follows a b x cells n v v' p) (hq : p → q) : Follows a b x cells n v v' q :=
  ⟨h.onward, fun hf hle => (h.along hf hle).imp_left hq⟩

/-- Where no call of `readit` is made. -/
theorem Follows.still (hc : v'.cells = v.cells) (hr : v'.reader = v.reader) (hp : p) : Follows a b x cells n v v' p := by
  refine ⟨Nat.le_of_eq (by rw [hr]), fun hf _ => ⟨hp, ?_, ?_⟩⟩
  · rw [hc, hr]
    exact hf.cells
  · rw [hr]
    exact hf.reader

variable (hn : ∀ i ≤ n, cellsAfter a x cells i = cellsAfter b x cells i)

include hn

theorem refill_follows {ok : Bool} (hf : v.refill (cut a) = (ok, v')) :
    Follows a b x cells n v v' ((v.onto b x).refill (cut b) = (ok, v'.onto b x)) := by
  by_cases hu : v.unread = 0
  · rw [refill_cut hu rfl] at hf
    cases hf
    refine ⟨Nat.le_succ _, fun h hle => ?_⟩
    -- The cells before this call are the same, and those after it.
    have ha : filled a v.reader.1 v.reader.2 v.cells = cellsAfter a x cells (v.reader.2 + 1) := by
      rw [cellsAfter, h.cells, h.reader]
    have hb : filled b (x.drop (start b v.reader.2)) v.reader.2 v.cells = cellsAfter a x cells (v.reader.2 + 1) := by
      rw [h.cells, hn _ (Nat.le_of_succ_le hle), hn _ hle, cellsAfter]
    have hra : v.reader.1.drop (a.size v.reader.2) = x.drop (start a (v.reader.2 + 1)) := by
      rw [h.reader, Stream'.drop_drop, start]
    have hrb : (x.drop (start b v.reader.2)).drop (b.size v.reader.2) = x.drop (start b (v.reader.2 + 1)) := by
      rw [Stream'.drop_drop, start]
    refine ⟨?_, ha, hra⟩
    rw [refill_cut (show (v.onto b x).unread = 0 from hu) rfl]
    simp only [onto, ha, hb, hrb]
  · rw [refill_unread hu] at hf
    cases hf
    exact .still rfl rfl (refill_unread (show (v.onto b x).unread ≠ 0 from hu))

theorem getInput_follows {len : Nat} {ok : Bool} {bs : List Byte} (hg : v.getInput (cut a) len = (ok, bs, v')) :
    Follows a b x cells n v v' ((v.onto b x).getInput (cut b) len = (ok, bs, v'.onto b x)) := by
  rw [getInput] at hg
  by_cases hl : len = 0
  · rw [if_pos hl] at hg
    cases hg
    exact .still rfl rfl (if_pos hl)
  · rw [if_neg hl] at hg
    rcases hf : v.refill (cut a) with ⟨_ | _, v₁⟩ <;> rw [hf] at hg <;> cases hg
    · exact (refill_follows hn hf).imp fun he => by rw [getInput, if_neg hl, he]
    · refine (refill_follows hn hf).trans (.still rfl rfl trivial) fun he _ => ?_
      rw [getInput, if_neg hl, he]
      rfl

theorem skip_follows {cnt : Nat} {ok : Bool} (hs : v.skip (cut a) cnt = (ok, v')) :
    Follows a b x cells n v v' ((v.onto b x).skip (cut b) cnt = (ok, v'.onto b x)) := by
  induction v, cnt using skip.induct (cut a) with
  | case1 v =>
    rw [skip_zero] at hs
    cases hs
    exact .still rfl rfl skip_zero
  | case2 v cnt hc v₁ hf =>
    rw [skip_refused hc hf] at hs
    cases hs
    exact (refill_follows hn hf).imp (skip_refused hc)
  | case3 v cnt hc v₁ hf ih =>
    rw [skip_next hc hf] at hs
    have hd : Follows a b x cells n v₁ (v₁.drop cnt) True := .still rfl rfl trivial
    exact (refill_follows hn hf).trans (hd.trans (ih hs) fun _ => id) fun he he' => (skip_next hc he).trans he'

theorem openFragment_follows {ok : Bool} (ho : v.openFragment (cut a) = (ok, v')) :
    Follows a b x cells n v v' ((v.onto b x).openFragment (cut b) = (ok, v'.onto b x)) := by
  have hl : Follows a b x cells n v { v with locals := fun n => v.locals (n + 1) } True := .still rfl rfl trivial
  rcases hg : getInput (cut a) { v with locals := fun n => v.locals (n + 1) } 4 with ⟨_ | _, bs, v₁⟩
  · rw [openFragment, hg] at ho
    cases ho
    refine hl.trans (getInput_follows hn hg) fun _ he => ?_
    have he' : ({ v.onto b x with locals := fun n => (v.onto b x).locals (n + 1) } : Inlet _).getInput (cut b) 4 = _ := he
    rw [openFragment, he']
  · rw [openFragment_eq hg] at ho
    by_cases hz : overlay (bs.map some) (v.locals 0) = 0
    all_goals
      simp only [hz, if_true, if_false] at ho
      cases ho
      refine (hl.trans (getInput_follows hn hg) fun _ he => he).trans (.still rfl rfl trivial) fun he _ => ?_
      rw [openFragment_eq (v := v.onto b x) he]
      simp only [show (v.onto b x).locals 0 = v.locals 0 from rfl, hz, if_true, if_false]
      rfl

theorem getbytes_follows {len : Nat} {ok : Bool} {bs : List (Option Byte)}
    (hg : v.getbytes (cut a) len = (ok, bs, v')) :
    Follows a b x cells n v v' ((v.onto b x).getbytes (cut b) len = (ok, bs, v'.onto b x)) := by
  induction v, len using getbytes.induct (cut a) generalizing ok bs with
  | case1 v =>
    rw [getbytes_zero] at hg
    cases hg
    exact .still rfl rfl getbytes_zero
  | case2 v len hl hc hlast =>
    rw [getbytes_last hl hc hlast] at hg
    cases hg
    exact .still rfl rfl (getbytes_last hl hc hlast)
  | case3 v len hl hc hlast v₁ ho =>
    rw [getbytes_refused hl hc hlast ho] at hg
    cases hg
    exact (openFragment_follows hn ho).imp (getbytes_refused hl hc hlast)
  | case4 v len hl hc hlast v₁ ho ih =>
    rw [getbytes_open hl hc hlast ho] at hg
    exact (openFragment_follows hn ho).trans (ih hg) fun he he' =>
      (getbytes_open (v := v.onto b x) hl hc hlast he).trans he'
  | case5 v len hl hc bs₁ v₁ hi =>
    rw [getbytes_cut hl hc hi] at hg
    cases hg
    exact (getInput_follows hn hi).imp (getbytes_cut hl hc)
  | case6 v len hl hc bs₁ v₁ hi ih =>
    rw [getbytes_next hl hc hi] at hg
    cases hg
    have hf : Follows a b x cells n v₁ { v₁ with fbtbc := v.fbtbc - min len v.fbtbc } True := .still rfl rfl trivial
    refine (getInput_follows hn hi).trans (hf.trans (ih rfl) fun _ => id) fun he he' => ?_
    have he'' : getbytes (cut b) { v₁.onto b x with fbtbc := (v.onto b x).fbtbc - min len (v.onto b x).fbtbc }
        (len - min len (v.onto b x).fbtbc) = _ := he'
    rw [getbytes_next (v := v.onto b x) hl hc he, he'']
    rfl

theorem getlong_follows {r : Option ULong} (hg : v.getlong (cut a) = (r, v')) :
    Follows a b x cells n v v' ((v.onto b x).getlong (cut b) = (r, v'.onto b x)) := by
  by_cases hi : v.fbtbc ≥ 4 ∧ v.unread ≥ 4
  · rw [getlong, if_pos hi] at hg
    cases hg
    exact .still rfl rfl (if_pos hi)
  · rcases hb : getbytes (cut a) { v with locals := fun n => v.locals (n + 1) } 4 with ⟨ok, bs, v₁⟩
    rw [getlong_slow hi hb] at hg
    cases hg
    have hl : Follows a b x cells n v { v with locals := fun n => v.locals (n + 1) } True := .still rfl rfl trivial
    exact hl.trans (getbytes_follows hn hb) fun _ he => getlong_slow (v := v.onto b x) hi he

theorem skiprecord_follows {fuel : Nat} {ok : Bool} (hs : v.skiprecord (cut a) fuel = some (ok, v')) :
    Follows a b x cells n v v' ((v.onto b x).skiprecord (cut b) fuel = some (ok, v'.onto b x)) := by
  induction fuel generalizing v with
  | zero => cases hs
  | succ fuel ih =>
    by_cases hc : v.fbtbc > 0 ∨ v.lastFrag = false
    · rcases hk : v.skip (cut a) v.fbtbc with ⟨_ | _, v₁⟩
      · rw [skiprecord_refused hc hk] at hs
        cases hs
        exact (skip_follows hn hk).imp (skiprecord_refused (v := v.onto b x) hc)
      · have hz : Follows a b x cells n v₁ { v₁ with fbtbc := 0 } True := .still rfl rfl trivial
        cases hl : v₁.lastFrag with
        | true =>
          rw [skiprecord_last hc hk hl] at hs
          exact (skip_follows hn hk).trans (hz.trans (ih hs) fun _ => id) fun he he' =>
            (skiprecord_last (v := v.onto b x) hc he hl).trans he'
        | false =>
          rcases ho : openFragment (cut a) { v₁ with fbtbc := 0 } with ⟨_ | _, v₂⟩
          · rw [skiprecord_closed hc hk hl ho] at hs
            cases hs
            exact (skip_follows hn hk).trans (hz.trans (openFragment_follows hn ho) fun _ => id) fun he he' =>
              skiprecord_closed (v := v.onto b x) hc he hl he'
          · rw [skiprecord_open hc hk hl ho] at hs
            have hopen := (skip_follows hn hk).trans (hz.trans (openFragment_follows hn ho) fun _ => id) And.intro
            exact hopen.trans (ih hs) fun he he' => (skiprecord_open (v := v.onto b x) hc he.1 hl he.2).trans he'
    · rw [skiprecord_done hc] at hs
      cases hs
      exact .still rfl rfl (skiprecord_done (v := v.onto b x) hc)

theorem call_follows {fuel : Nat} {o : TakeOp} {r : RecResult} (hc : v.call fuel (cut a) o = some (r, v')) :
    Follows a b x cells n v v' ((v.onto b x).call fuel (cut b) o = some (r, v'.onto b x)) := by
  cases o with
  | getlong =>
    rcases hg : v.getlong (cut a) with ⟨r₁, v₁⟩
    rw [Inlet.call, hg] at hc
    cases hc
    exact (getlong_follows hn hg).imp fun he => by rw [Inlet.call, he]
  | getbytes len =>
    rcases hg : v.getbytes (cut a) len.toNat with ⟨ok, bs, v₁⟩
    rw [Inlet.call, hg] at hc
    cases hc
    exact (getbytes_follows hn hg).imp fun he => by rw [Inlet.call, he]
  | skiprecord =>
    rw [Inlet.call] at hc
    obtain ⟨⟨ok, v₁⟩, hs, he⟩ := Option.map_eq_some_iff.mp hc
    cases he
    exact (skiprecord_follows hn hs).imp fun he => by rw [Inlet.call, he]; rfl

theorem outputs_follows {fuel : Nat} {os : List TakeOp} {rs : List RecResult}
    (ho : outputs (Inlet.call fuel (cut a)) v os = some (rs, v')) :
    Follows a b x cells n v v' (outputs (Inlet.call fuel (cut b)) (v.onto b x) os = some (rs, v'.onto b x)) := by
  induction os generalizing v rs with
  | nil =>
    cases ho
    exact .still rfl rfl rfl
  | cons o os ih =>
    simp only [outputs, Option.bind_eq_some_iff, Option.map_eq_some_iff] at ho
    obtain ⟨⟨r, v₁⟩, hc, ⟨rs', v₂⟩, hr, he⟩ := ho
    cases he
    exact (call_follows hn hc).trans (ih hr) outputs_cons

end Follows

/-! ## One header -/

/-- The inlet stands before a header, over the cells of an empty last fragment. -/
structure Idle (v : Inlet (Stream' Byte × Nat)) (x : Stream' Byte) (i : Nat) : Prop where
  cells : v.cells = emptyLast
  unread : v.unread = 0
  fbtbc : v.fbtbc = 0
  last : v.lastFrag = false
  reader : v.reader = (x, i)

/-- A piece of the header that is in the cells changes nothing: the record is skipped. -/
theorem Idle.skiprecord (h : Idle v x i) (hx : x.take (a.size i) = emptyLast.take (a.size i)) (fuel : Nat) :
    ∃ v', v.call (fuel + 2) (cut a) .skiprecord = some (.bool true, v') ∧ Idle v' (x.drop (a.size i)) (i + 1) := by
  have hc : filled a x i v.cells = emptyLast := by
    rw [filled, h.cells, hx, List.take_append_drop]
  have hv : ({ v with fbtbc := 0 } : Inlet (Stream' Byte × Nat)) = v := by
    rw [← h.fbtbc]
  have hg := getInput_cut (v := { v with locals := fun n => v.locals (n + 1) }) (a := a) h.unread h.reader
    (Nat.succ_ne_zero 3)
  rw [hc] at hg
  have ho := openFragment_header (n := 0) (Nat.two_pow_pos 31) (fun hl => by cases hl) hg rfl
  have hs : v.skip (cut a) v.fbtbc = (true, v) := by rw [h.fbtbc, skip_zero]
  refine ⟨⟨emptyLast, 0, 0, false, (x.drop (a.size i), i + 1), fun n => v.locals (n + 1)⟩, ?_, rfl, rfl, rfl, rfl, rfl⟩
  rw [Inlet.call, skiprecord_open (Or.inr h.last) hs h.last (by rw [hv]; exact ho), skiprecord_done (by simp)]
  rfl

/-- When the marked byte is not in the piece, the next fragment is refused. -/
theorem Idle.getbytes_missed (h : Idle v (mark (a.size i)) i) (hlt : a.size i < 4) (fuel : Nat) :
    ∃ v', v.call fuel (cut a) (.getbytes 1) = some (.bytes false [], v') := by
  have hg := getInput_cut (v := { v with locals := fun n => v.locals (n + 1) }) (a := a) h.unread h.reader
    (Nat.succ_ne_zero 3)
  have hc : filled a (mark (a.size i)) i v.cells = toBytes 0 := by
    rw [filled, h.cells, mark_missed (a.pos i) hlt]
  rw [hc] at hg
  have ho := openFragment_eq hg
  rw [show (toBytes (0 : Word)).take (Nat.succ 3) = toBytes 0 from rfl, overlay_word] at ho
  have hb : v.getbytes (cut a) (1 : Word).toNat = (false, [], _) :=
    getbytes_refused (Nat.succ_ne_zero 0) h.fbtbc (by simp [h.last]) ho
  exact ⟨_, by rw [Inlet.call, hb]⟩

/-- When it is, the fragment is opened. -/
theorem Idle.getbytes_seen {m : Nat} (h : Idle v (mark m) i) (hm : 0 < m) (hlt : m < a.size i) (fuel : Nat) :
    ∃ cells v', v.call fuel (cut a) (.getbytes 1) = some (.bytes true cells, v') := by
  have hg := getInput_cut (v := { v with locals := fun n => v.locals (n + 1) }) (a := a) h.unread h.reader
    (Nat.succ_ne_zero 3)
  have hc : filled a (mark m) i v.cells = toBytes (header false (2 ^ (8 * (3 - m)))) := by
    rw [filled, h.cells, mark_seen hm hlt (a.le i)]
  rw [hc] at hg
  have hpow : 0 < 2 ^ (8 * (3 - m)) := Nat.two_pow_pos _
  have hn : 2 ^ (8 * (3 - m)) < 2 ^ 31 := Nat.pow_lt_pow_right (Nat.lt_succ_self 1) (by omega)
  generalize 2 ^ (8 * (3 - m)) = n at hpow hn hg
  obtain ⟨v₁, ho, hf, hu, hr⟩ : ∃ v₁, v.openFragment (cut a) = (true, v₁) ∧ v₁.fbtbc = n ∧ v₁.unread = 0 ∧
      v₁.reader = ((mark m).drop (a.size i), i + 1) :=
    ⟨_, openFragment_header hn (fun _ => by omega) hg rfl, rfl, rfl, rfl⟩
  have hmin : min 1 v₁.fbtbc = 1 := by omega
  have hg₁ := getInput_cut (a := a) hu hr Nat.one_ne_zero
  have hb := getbytes_open Nat.one_ne_zero h.fbtbc (by simp [h.last]) ho
  have hb₁ := getbytes_next (v := v₁) Nat.one_ne_zero (by omega) (by rw [hmin]; exact hg₁)
  rw [hmin, Nat.sub_self, getbytes_zero] at hb₁
  have hb' : v.getbytes (cut a) (1 : Word).toNat = (true, _, _) := hb.trans hb₁
  exact ⟨_, _, by rw [Inlet.call, hb']⟩

end Inlet

/-! ## Runs -/

/-- The pieces of empty last fragments that the calls from `i` on give. -/
def pieces (a : Cutting) : Nat → Nat → List Byte
  | _, 0 => []
  | i, n + 1 => emptyLast.take (a.size i) ++ pieces a (i + 1) n

theorem pieces_congr {a b : Cutting} {i n : Nat} (h : ∀ j, i ≤ j → j < i + n → a.size j = b.size j) :
    pieces a i n = pieces b i n := by
  induction n generalizing i with
  | zero => rfl
  | succ n ih =>
    rw [pieces, pieces, h i (Nat.le_refl i) (by omega), ih fun j h₁ h₂ => h j (by omega) (by omega)]

/-- The records are skipped one by one. -/
theorem Inlet.Idle.run {a : Cutting} {v : Inlet (Stream' Byte × Nat)} {y : Stream' Byte} {i n : Nat}
    (h : Idle v (pieces a i n ++ₛ y) i) (fuel : Nat) :
    ∃ v', outputs (Inlet.call (fuel + 2) (cut a)) v (List.replicate n .skiprecord) =
      some (List.replicate n (.bool true), v') ∧ Idle v' y (i + n) := by
  induction n generalizing v i with
  | zero => exact ⟨v, rfl, h⟩
  | succ n ih =>
    have hl : (emptyLast.take (a.size i)).length = a.size i := by
      rw [List.length_take, show emptyLast.length = 4 from rfl, Nat.min_eq_left (a.le i)]
    rw [pieces, Stream'.append_append_stream] at h
    have hx := Stream'.append_take (x := emptyLast.take (a.size i)) (a := pieces a (i + 1) n ++ₛ y) (n := 0)
    rw [Stream'.take_zero, List.append_nil, Nat.add_zero, hl] at hx
    obtain ⟨v₁, hc, h₁⟩ := h.skiprecord hx.symm fuel
    have hd := Stream'.drop_append_stream (emptyLast.take (a.size i)) (pieces a (i + 1) n ++ₛ y)
    rw [hl] at hd
    rw [hd] at h₁
    obtain ⟨v', ho, h'⟩ := ih h₁
    rw [Nat.add_right_comm] at h'
    exact ⟨v', outputs_cons hc ho, h'⟩

/-- The cells in front of a new stream hold the header of an empty last fragment. -/
def emptyMem : Heap Byte := fun x => if x = 3992 then 0x80 else 0

theorem create_idle (x : Stream' Byte) (a : Cutting) (fuel : Nat) :
    ∃ v, Inlet.call (fuel + 2) (cut a) (flexxdrrecCreate 0 0 0 emptyMem (x, 0) () fun _ => 0).inlet .skiprecord =
      some (.bool true, v) ∧ Inlet.Idle v x 0 := by
  have hc : (flexxdrrecCreate (ω := Unit) 0 0 0 emptyMem (x, 0) () fun _ => 0).inlet.cells = emptyLast := rfl
  have hu : (flexxdrrecCreate (ω := Unit) 0 0 0 emptyMem (x, 0) () fun _ => 0).inlet.unread = 0 :=
    create_unread 0 0 0 emptyMem (x, 0) () fun _ => 0
  have hd : Inlet.skiprecord (cut a) (flexxdrrecCreate 0 0 0 emptyMem (x, 0) () fun _ => 0).inlet (fuel + 1 + 1) = _ :=
    Inlet.skiprecord_done (by rintro (h | h) <;> cases h)
  refine ⟨{ (flexxdrrecCreate 0 0 0 emptyMem (x, 0) () fun _ => 0).inlet with lastFrag := false }, ?_, hc, hu, rfl,
    rfl, rfl⟩
  rw [Inlet.call, hd]
  rfl

/-- Up to call `i` only empty last fragments come. -/
theorem skips_idle (a : Cutting) (i m fuel : Nat) : ∃ v,
    outputs (Inlet.call (fuel + 2) (cut a))
      (flexxdrrecCreate 0 0 0 emptyMem (pieces a 0 i ++ₛ mark m, 0) () fun _ => 0).inlet
      (List.replicate (i + 1) .skiprecord) = some (List.replicate (i + 1) (.bool true), v) ∧ Inlet.Idle v (mark m) i := by
  obtain ⟨v₁, hc, h₁⟩ := create_idle (pieces a 0 i ++ₛ mark m) a fuel
  obtain ⟨v, ho, h⟩ := h₁.run fuel
  rw [Nat.zero_add] at h
  exact ⟨v, outputs_cons hc ho, h⟩

/-- Two cuttings that part at call `i` are told apart there by a header. -/
theorem not_sameReceived {a b : Cutting} {i : Nat} (heq : ∀ j, j < i → a.size j = b.size j)
    (hlt : a.size i < b.size i) :
    ¬ SameReceived a b (flexxdrrecCreate 0 0 0 emptyMem (pieces a 0 i ++ₛ mark (a.size i), 0) () fun _ => 0)
      (List.replicate (i + 1) .skiprecord ++ [.getbytes 1]) := by
  intro h
  have hpieces : pieces b 0 i = pieces a 0 i := pieces_congr fun j _ hj => (heq j (by omega)).symm
  have hp := Placed.create (ω := Unit) 0 0 0 emptyMem (pieces a 0 i ++ₛ mark (a.size i), 0) () fun _ => 0
  have ha : Returns (cut a) (flexxdrrecCreate 0 0 0 emptyMem (pieces a 0 i ++ₛ mark (a.size i), 0) () fun _ => 0)
      (List.replicate (i + 1) .skiprecord ++ [.getbytes 1]) (List.replicate (i + 1) (.bool true) ++ [.bytes false []]) := by
    refine ⟨2, fun fuel hf => ?_⟩
    obtain ⟨n, rfl⟩ := Nat.exists_eq_add_of_le' hf
    obtain ⟨v, ho, hv⟩ := skips_idle a i (a.size i) n
    obtain ⟨v', hc⟩ := hv.getbytes_missed (Nat.lt_of_lt_of_le hlt (b.le i)) (n + 2)
    have hall := outputs_append ho (outputs_one hc)
    rw [hp.results_inlet, hall]
    rfl
  -- The other transport returns TRUE at the last call.
  obtain ⟨n, hn⟩ := (h _).mp ha
  obtain ⟨v, ho, hv⟩ := skips_idle b i (a.size i) n
  rw [hpieces] at ho
  obtain ⟨cells, v', hc⟩ := hv.getbytes_seen (a.pos i) hlt (n + 2)
  have hall := outputs_append ho (outputs_one hc)
  have hb := hn (n + 2) (Nat.le_add_right n 2)
  rw [hp.results_inlet, hall] at hb
  have hlast := List.append_cancel_left (Option.some.inj hb)
  cases hlast

section Received

variable {a b : Cutting} {s : RecStrm (Stream' Byte × Nat) Unit} {os : List TakeOp} {rs : List RecResult}

theorem SameReceived.symm (h : SameReceived a b s os) : SameReceived b a s os := fun rs => (h rs).symm

theorem FilledAlike.symm (h : FilledAlike a b s os) : FilledAlike b a s os :=
  fun fuel rs s' ho i hi => (h fuel rs s' ho.symm i hi).symm

/-- What one transport returns the other does, when the cells are the same. -/
theorem FilledAlike.returns (h : FilledAlike a b s os) (hp : Placed s) (h₀ : s.reader.2 = 0)
    (hr : Returns (cut a) s os rs) : Returns (cut b) s os rs := by
  obtain ⟨n, hn⟩ := hr
  refine ⟨n, fun fuel hf => ?_⟩
  obtain ⟨⟨rs', s'⟩, ho, he⟩ := Option.map_eq_some_iff.mp (hn fuel hf)
  obtain rfl : rs' = rs := he
  have hv := hp.outputs_inlet (cut a) fuel os
  rw [ho] at hv
  have hfed : s.inlet.Fed a s.reader.1 (s.mem.load s.inBase 4) := by
    refine ⟨?_, ?_⟩
    · rw [show s.inlet.reader.2 = 0 from h₀]
      rfl
    · rw [show s.inlet.reader.2 = 0 from h₀]
      rfl
  have honto : s.inlet.onto b s.reader.1 = s.inlet := by
    rw [Inlet.onto, show s.inlet.reader.2 = 0 from h₀]
    refine Inlet.ext rfl rfl rfl rfl ?_ rfl
    exact Prod.ext rfl h₀.symm
  obtain ⟨he, -⟩ := (Inlet.outputs_follows (h fuel rs' s' (.inl ho)) hv).along hfed (Nat.le_refl _)
  rw [honto] at he
  rw [hp.results_inlet, he]
  rfl

end Received

/-- **Receiving gives the same** when the calls of `readit` that are made leave the same cells, however the stream is
cut; and two cuttings that are not the same are told apart by some stream. -/
theorem sameReceived (a b : Cutting) :
    (∀ (x : Stream' Byte) (sendsize recvsize : Word) (buf : Int) (mem : Heap Byte) (locals : Nat → Word)
      (os : List TakeOp), FilledAlike a b (flexxdrrecCreate sendsize recvsize buf mem (x, 0) () locals) os →
        SameReceived a b (flexxdrrecCreate sendsize recvsize buf mem (x, 0) () locals) os) ∧
      (a ≠ b → ∃ (x : Stream' Byte) (sendsize recvsize : Word) (buf : Int) (mem : Heap Byte) (locals : Nat → Word)
        (os : List TakeOp), ¬ SameReceived a b (flexxdrrecCreate sendsize recvsize buf mem (x, 0) () locals) os) := by
  refine ⟨fun x sendsize recvsize buf mem locals os h rs => ?_, fun hne => ?_⟩
  · have hp := Placed.create (ω := Unit) sendsize recvsize buf mem (x, 0) () locals
    exact ⟨h.returns hp rfl, h.symm.returns hp rfl⟩
  · have hdiff : ∃ i, a.size i ≠ b.size i := by
      by_contra! hall
      exact hne (Cutting.ext (funext hall))
    classical
    have hfirst : ∀ j, j < Nat.find hdiff → a.size j = b.size j := fun j hj => not_not.mp (Nat.find_min hdiff hj)
    rcases Nat.lt_or_gt_of_ne (Nat.find_spec hdiff) with hlt | hgt
    · exact ⟨_, 0, 0, 0, emptyMem, _, _, not_sameReceived hfirst hlt⟩
    · exact ⟨_, 0, 0, 0, emptyMem, _, _, fun h => not_sameReceived (fun j hj => (hfirst j hj).symm) hgt h.symm⟩

/-- Pieces of the same sizes leave the same cells. -/
theorem cellsAfter_congr {a b : Cutting} {n : Nat} (h : ∀ j, j < n → a.size j = b.size j) (x : Stream' Byte)
    (cells : List Byte) : ∀ i ≤ n, start a i = start b i ∧ cellsAfter a x cells i = cellsAfter b x cells i := by
  intro i hi
  induction i with
  | zero => exact ⟨rfl, rfl⟩
  | succ i ih =>
    obtain ⟨hs, hc⟩ := ih (Nat.le_of_succ_le hi)
    have hsize := h i hi
    refine ⟨?_, ?_⟩
    · rw [start, start, hs, hsize]
    · rw [cellsAfter, cellsAfter, filled, filled, hs, hc, hsize]

/-- Two whole words, and then single bytes. -/
def slowing : Cutting where
  size i := if i < 2 then 4 else 1
  pos i := by split <;> decide
  le i := by split <;> decide

/-- Pieces of one size each. -/
def even (n : Nat) (h₀ : 0 < n) (h₁ : n ≤ 4) : Cutting := ⟨fun _ => n, fun _ => h₀, fun _ => h₁⟩

/-- A new stream over a peer that sends ones. -/
def ones : RecStrm (Stream' Byte × Nat) Unit :=
  flexxdrrecCreate 0 0 0 (fun _ => 0) (Stream'.const 1, 0) () fun _ => 0

/-- Opening a record and reading two bytes of it takes two words. -/
theorem ones_calls {a : Cutting} (h₀ : a.size 0 = 4) {fuel : Nat} {rs : List RecResult}
    {s' : RecStrm (Stream' Byte × Nat) Unit}
    (ho : outputs (takeStep fuel (cut a)) ones [.skiprecord, .getbytes 2] = some (rs, s')) : s'.reader.2 = 2 := by
  have hp : Placed ones := Placed.create 0 0 0 (fun _ => 0) (Stream'.const 1, 0) () fun _ => 0
  have hv := hp.outputs_inlet (cut a) fuel [.skiprecord, .getbytes 2]
  rw [ho] at hv
  cases fuel with
  | zero => cases hv
  | succ fuel =>
    have hs : ones.inlet.call (fuel + 1) (cut a) .skiprecord =
        some (.bool true, { ones.inlet with lastFrag := false }) := by
      rw [Inlet.call, Inlet.skiprecord_done (by rintro (h | h) <;> cases h)]
      rfl
    have hg := Inlet.getInput_cut (v := { ones.inlet with lastFrag := false, locals := fun _ => 0 }) (a := a)
      (create_unread 0 0 0 (fun _ => 0) (Stream'.const 1, 0) () fun _ => 0) rfl (Nat.succ_ne_zero 3)
    have hc : filled a (Stream'.const 1) 0 ones.inlet.cells = toBytes (header false 0x01010101) := by
      rw [filled, h₀]
      rfl
    rw [show ({ ones.inlet with lastFrag := false, locals := fun _ => 0 } : Inlet _).cells = ones.inlet.cells from rfl,
      hc] at hg
    obtain ⟨v, hopen, hf, hu, hr⟩ : ∃ v, Inlet.openFragment (cut a) { ones.inlet with lastFrag := false } = (true, v) ∧
        v.fbtbc = 0x01010101 ∧ v.unread = 0 ∧ v.reader = ((Stream'.const 1).drop (a.size 0), 1) :=
      ⟨_, Inlet.openFragment_header (by decide) (by decide) hg rfl, rfl, rfl, rfl⟩
    have hmin : min 2 v.fbtbc = 2 := by omega
    have hb := Inlet.getbytes_next (v := v) (Nat.succ_ne_zero 1) (by omega)
      (by rw [hmin]; exact Inlet.getInput_cut (a := a) hu hr (Nat.succ_ne_zero 1))
    rw [hmin, Nat.sub_self, Inlet.getbytes_zero] at hb
    have hb' := Inlet.getbytes_open (v := { ones.inlet with lastFrag := false }) (Nat.succ_ne_zero 1) rfl
      Bool.false_ne_true hopen
    have hget : Inlet.getbytes (cut a) { ones.inlet with lastFrag := false } (2 : Word).toNat = (true, _, _) :=
      hb'.trans hb
    obtain ⟨cells, v', hcall, hcount⟩ : ∃ cells v', Inlet.call (fuel + 1) (cut a)
        { ones.inlet with lastFrag := false } (.getbytes 2) = some (.bytes true cells, v') ∧ v'.reader.2 = 2 :=
      ⟨_, _, by rw [Inlet.call, hget], rfl⟩
    rw [outputs_cons hs (outputs_one hcall)] at hv
    have he : v' = s'.inlet := congrArg Prod.snd (Option.some.inj hv)
    rw [he] at hcount
    exact hcount

theorem sameReceived_slowing : SameReceived (even 4 (by decide) (by decide)) slowing ones [.skiprecord, .getbytes 2] := by
  refine (sameReceived (even 4 (by decide) (by decide)) slowing).1 (Stream'.const 1) 0 0 0 (fun _ => 0) (fun _ => 0) _ ?_
  rintro fuel rs s' ho i hi
  have hcalls : s'.reader.2 = 2 := ho.elim (ones_calls rfl) (ones_calls rfl)
  refine (cellsAfter_congr (n := 2) (fun j hj => ?_) _ _ i (by omega)).2
  exact (if_pos hj).symm

/-- Whole words and single bytes do not give the same results. -/
theorem words_bytes_differ : ¬ SameReceived (even 4 (by decide) (by decide)) (even 1 (by decide) (by decide))
    (flexxdrrecCreate 0 0 0 emptyMem (mark 1, 0) () fun _ => 0) [.skiprecord, .getbytes 1] :=
  fun h => not_sameReceived (i := 0) (fun j hj => by cases hj) (by decide) h.symm

end Cornflakes.Flexrpc

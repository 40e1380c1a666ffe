import Mathlib.Data.List.Perm.Subperm
import Cornflakes.Flexrpc.Feed

/-!
# Reading the bytes of a record

The loop of `get_input_bytes` ends after one copy and reports all it was asked for. So `flexxdrrec_getbytes` delivers the
bytes of a record as long as no copy and no header crosses from one block of four bytes of the wire into the next
(`Unbroken`): then every request gets the next bytes, wherever the fragments end. A request that crosses leaves cells
without a store, or takes bytes of a header for bytes of the record (`delivers_iff`).
-/

set_option autoImplicit false

namespace Cornflakes.Flexrpc

open Wire

variable {ρ ω : Type}

/-! ## The property -/

/-- Every request returns TRUE just when so many bytes are left, and then stores the next of them. A request that is
refused uses up what is left. -/
def Serves (T : Transport ρ ω) : RecStrm ρ ω → List Byte → List Word → Prop
  | _, _, [] => True
  | s, rest, len :: lens =>
    let (ok, cells, s') := flexxdrrecGetbytes T s len.toNat
    (ok = true ↔ len.toNat ≤ rest.length) ∧ (ok = true → cells = (rest.take len.toNat).map some) ∧
      Serves T s' (rest.drop len.toNat) lens

/-- Whatever the record is that is cut into fragments of the lengths `ls` and starts `off` bytes into a block, the
requests are served after `flexxdrrec_skiprecord` has opened it. -/
def Delivers (off : Nat) (ls : List Nat) (rs : List Word) : Prop :=
  ∀ (ρ ω : Type) (T : Transport ρ ω) (s₀ s : RecStrm ρ ω) (fuel k : Nat) (ps : List (List Byte)), T.Exact →
    Reached T s₀ → flexxdrrecSkiprecord T s₀ fuel = some (true, s) → (off + s.inlet.unread) % 4 = 0 →
    ps ≠ [] → Sendable ps → ps.map List.length = ls → record ps <+: s.inlet.window ++ T.supply s.reader k →
    Serves T s ps.flatten rs

/-! ## The condition -/

/-- A place of a record: `pos` bytes past the start of a block, with `left` bytes in the fragment and fragments of the
lengths `later` after it. -/
structure Spot where
  pos : Nat
  left : Nat
  later : List Nat

/-- No copy for `len` bytes and no header on the way crosses a block. What the last fragment does not have is refused
in any case. -/
def Within : List Nat → Nat → Nat → Nat → Prop
  | [], pos, left, len => len ≤ left → pos % 4 + len ≤ 4
  | l :: ls, pos, left, len =>
    if len ≤ left then pos % 4 + len ≤ 4
    else (pos % 4 + left ≤ 4 ∧ (pos + left) % 4 = 0) ∧ Within ls (pos + left + 4) l (len - left)

/-- The place after `len` bytes. -/
def forward : List Nat → Nat → Nat → Nat → Spot
  | [], pos, left, len => ⟨pos + len, left - len, []⟩
  | l :: ls, pos, left, len =>
    if len ≤ left then ⟨pos + len, left - len, l :: ls⟩ else forward ls (pos + left + 4) l (len - left)

def Spot.next (p : Spot) (len : Word) : Option Spot := some (forward p.later p.pos p.left len.toNat)

def Spot.Clear (p : Spot) (len : Word) : Prop := Within p.later p.pos p.left len.toNat

/-- No request crosses a block. -/
def Unbroken (off : Nat) (ls : List Nat) (rs : List Word) : Prop := Throughout Spot.next Spot.Clear ⟨off, 0, ls⟩ rs

/-- No byte of a fragment is one of the low bytes of its header. -/
def Unlike (ps : List (List Byte)) : Prop :=
  ∀ p ∈ ps, ∀ last, ∀ b ∈ p, b ∉ (toBytes (header last p.length)).drop 1

namespace Inlet

variable {T : Transport ρ ω} {e : ρ} {v v' : Inlet ρ} {pos len : Nat} {cur p : List Byte} {later : List (List Byte)}
  {w : List Byte}

/-! ## One request -/

/-- A request that the record can meet. -/
theorem getbytes_served (hx : T.Exact) (h : At T e v pos cur later w) (hp : Sendable later)
    (hw : Within (later.map List.length) pos cur.length len) (hl : len ≤ (cur ++ later.flatten).length) :
    ∃ v' pos' cur' later', v.getbytes T len = (true, ((cur ++ later.flatten).take len).map some, v') ∧
      forward (later.map List.length) pos cur.length len = ⟨pos', cur'.length, later'.map List.length⟩ ∧
      At T e v' pos' cur' later' w ∧ later' <:+ later ∧ cur' ++ later'.flatten = (cur ++ later.flatten).drop len := by
  induction later generalizing v pos cur len with
  | nil =>
    simp only [List.flatten_nil, List.append_nil, List.map_nil] at hl hw ⊢
    obtain ⟨v', hg, h'⟩ := getbytes_fragment hx h hl (hw hl)
    exact ⟨v', pos + len, cur.drop len, [], hg, by simp [forward], h', List.suffix_refl _, by simp⟩
  | cons p later ih =>
    rw [List.map_cons, Within] at hw
    rw [List.map_cons, forward]
    by_cases hc : len ≤ cur.length
    · rw [if_pos hc] at hw ⊢
      obtain ⟨v', hg, h'⟩ := getbytes_fragment hx h hc hw
      refine ⟨v', pos + len, cur.drop len, p :: later, ?_, ?_, h', List.suffix_refl _, ?_⟩
      · rw [hg, List.take_append_of_le_length hc]
      · simp
      · rw [List.drop_append_of_le_length hc]
    · rw [if_neg hc] at hw ⊢
      obtain ⟨v₁, h₁, hg₁⟩ := getbytes_across hx h (Nat.not_le.mp hc) hw.1.1
      have hpos : len - cur.length ≠ 0 := by omega
      obtain ⟨v₂, h₂, hg₂⟩ := getbytes_header hx h₁ hp hpos hw.1.2
      have hl₂ : len - cur.length ≤ (p ++ later.flatten).length := by
        simp only [List.flatten_cons, List.length_append] at hl ⊢
        omega
      obtain ⟨v', pos', cur', later', hg, hf, h', hs, hrest⟩ := ih h₂ hp.tail hw.2 hl₂
      refine ⟨v', pos', cur', later', ?_, hf, h', hs.trans (List.suffix_cons p later), ?_⟩
      · have ht : (cur ++ (p :: later).flatten).take len = cur ++ (p ++ later.flatten).take (len - cur.length) := by
          rw [List.take_append, List.take_of_length_le (Nat.le_of_not_le hc), List.flatten_cons]
        rw [hg₁, hg₂, hg, ht, List.map_append]
      · have hd : (cur ++ (p :: later).flatten).drop len = (p ++ later.flatten).drop (len - cur.length) := by
          rw [List.drop_append, List.drop_of_length_le (Nat.le_of_not_le hc), List.nil_append, List.flatten_cons]
        rw [hrest, hd]

/-- Nothing is left of the record. -/
def Drained (v : Inlet ρ) : Prop := v.fbtbc = 0 ∧ v.lastFrag = true

/-- A request that the record cannot meet. -/
theorem getbytes_over (hx : T.Exact) (h : At T e v pos cur later w) (hp : Sendable later)
    (hw : Within (later.map List.length) pos cur.length len) (hl : (cur ++ later.flatten).length < len) :
    (∃ cells v', v.getbytes T len = (false, cells, v') ∧ v'.Drained) ∧
      ∃ pos', forward (later.map List.length) pos cur.length len = ⟨pos', 0, []⟩ := by
  induction later generalizing v pos cur len with
  | nil =>
    simp only [List.flatten_nil, List.append_nil] at hl
    have hf := h.fbtbc
    have hlast : v.lastFrag = true := h.last
    refine ⟨?_, pos + len, by simp [forward]; omega⟩
    by_cases h0 : cur.length = 0
    · exact ⟨[], v, getbytes_last (by omega) (by omega) hlast, by rw [hf, h0], hlast⟩
    · obtain ⟨bs, v', hg, -, hs, -⟩ := getInput_exact hx h.sound (n := min len v.fbtbc) (by omega)
      have hd : ({ v' with fbtbc := v.fbtbc - min len v.fbtbc } : Inlet ρ).Drained :=
        ⟨by show v.fbtbc - min len v.fbtbc = 0; omega, hs.2.1.trans hlast⟩
      rw [getbytes_next (by omega) (by omega) hg, getbytes_last (by omega) hd.1 hd.2]
      exact ⟨_, _, rfl, hd⟩
  | cons p later ih =>
    rw [List.map_cons, Within] at hw
    rw [List.map_cons, forward]
    simp only [List.flatten_cons, List.length_append] at hl
    have hc : ¬ len ≤ cur.length := by omega
    rw [if_neg hc] at hw ⊢
    obtain ⟨v₁, h₁, hg₁⟩ := getbytes_across hx h (Nat.not_le.mp hc) hw.1.1
    have hpos : len - cur.length ≠ 0 := by omega
    obtain ⟨v₂, h₂, hg₂⟩ := getbytes_header hx h₁ hp hpos hw.1.2
    obtain ⟨⟨cells, v', hg, hd⟩, hf⟩ := ih h₂ hp.tail hw.2 (by rw [List.length_append]; omega)
    refine ⟨⟨cur.map some ++ cells, v', ?_, hd⟩, hf⟩
    rw [hg₁, hg₂, hg]

/-! ## All requests -/

/-- `Serves`, of the receiving side. -/
def Serves (T : Transport ρ ω) : Inlet ρ → List Byte → List Word → Prop
  | _, _, [] => True
  | v, rest, len :: lens =>
    let (ok, cells, v') := v.getbytes T len.toNat
    (ok = true ↔ len.toNat ≤ rest.length) ∧ (ok = true → cells = (rest.take len.toNat).map some) ∧
      Serves T v' (rest.drop len.toNat) lens

theorem serves_cons {rest : List Byte} {len : Word} {lens : List Word} {ok : Bool} {cells : List (Option Byte)}
    (h : v.getbytes T len.toNat = (ok, cells, v')) : v.Serves T rest (len :: lens) ↔
      (ok = true ↔ len.toNat ≤ rest.length) ∧ (ok = true → cells = (rest.take len.toNat).map some) ∧
        v'.Serves T (rest.drop len.toNat) lens := by
  rw [Serves, h]

theorem Drained.serves (h : v.Drained) (rs : List Word) : v.Serves T [] rs := by
  induction rs with
  | nil => trivial
  | cons len rs ih =>
    by_cases h0 : len.toNat = 0
    · rw [serves_cons (by rw [h0, getbytes_zero])]
      simp [h0, ih]
    · rw [serves_cons (getbytes_last h0 h.1 h.2)]
      simp [h0, ih]

theorem serves_of_unbroken (hx : T.Exact) (h : At T e v pos cur later w) (hp : Sendable later) {rs : List Word}
    (hu : Throughout Spot.next Spot.Clear ⟨pos, cur.length, later.map List.length⟩ rs) :
    v.Serves T (cur ++ later.flatten) rs := by
  induction rs generalizing v pos cur later with
  | nil => trivial
  | cons len rs ih =>
    obtain ⟨hc, hn⟩ := hu
    by_cases hl : len.toNat ≤ (cur ++ later.flatten).length
    · obtain ⟨v', pos', cur', later', hg, hf, h', hs, hrest⟩ := getbytes_served hx h hp hc hl
      rw [serves_cons hg, ← hrest]
      exact ⟨by simpa using hl, fun _ => rfl, ih h' (hp.suffix hs) (hn _ (congrArg some hf))⟩
    · obtain ⟨⟨cells, v', hg, hd⟩, -⟩ := getbytes_over hx h hp hc (Nat.not_le.mp hl)
      rw [serves_cons hg, List.drop_of_length_le (Nat.le_of_not_le hl)]
      exact ⟨by simpa using hl, (fun he => by cases he), hd.serves rs⟩

/-! ## Requests that cross a block -/

/-- A copy across a block leaves a cell without a store. -/
theorem copy_fits (hx : T.Exact) (h : At T e v pos cur later w) (hn : none ∉ (v.getbytes T len).2.1) :
    pos % 4 + min len cur.length ≤ 4 := by
  by_contra hb
  have hf := h.fbtbc
  have hr := h.room
  obtain ⟨bs, v', hg, -, -, hl, -⟩ := getInput_exact hx h.sound (n := min len v.fbtbc) (by omega)
  rw [getbytes_next (by omega) (by omega) hg] at hn
  apply hn
  simp only [List.mem_append, List.mem_replicate, and_true]
  left
  right
  omega

/-- At the end of a fragment a request that is met opens a fragment that is not empty. -/
theorem opened_of_met (hl : len ≠ 0) (hf : v.fbtbc = 0) (hlast : ¬ v.lastFrag = true)
    (hok : (v.getbytes T len).1 = true) :
    ∃ v', v.openFragment T = (true, v') ∧ v'.fbtbc ≠ 0 ∧ v.getbytes T len = v'.getbytes T len := by
  rcases ho : v.openFragment T with ⟨ok, v'⟩
  cases ok with
  | false =>
    rw [getbytes_refused hl hf hlast ho] at hok
    cases hok
  | true =>
    have hg := getbytes_open hl hf hlast ho
    have hrank := openRank_open T ho
    refine ⟨v', rfl, fun hc => ?_, hg⟩
    have hlast' : v'.lastFrag = true := by
      by_contra hl'
      rw [openRank, if_neg (not_not.mpr hc), if_neg hl'] at hrank
      exact Nat.lt_irrefl 2 hrank
    rw [hg, getbytes_last hl hc hlast'] at hok
    cases hok

/-- Of a header across a block the second part stays ahead, at the start of the block. -/
theorem cut_header {v' : Inlet ρ} (hx : T.Exact) (h : At T e v pos [] (p :: later) w)
    (ho : v.openFragment T = (true, v')) : v'.Sound ∧ v'.room = 4 ∧
      v'.Ahead T ((toBytes (header later.isEmpty p.length)).drop (4 - pos % 4) ++ (p ++ (record later ++ w))) e := by
  have hlen : (toBytes (header later.isEmpty p.length)).length = 4 := length_toBytes _
  obtain ⟨bs, v₁, hg, h₁, -, -, hu, ha⟩ :=
    getInput_exact (v := { v with locals := fun n => v.locals (n + 1) }) hx h.sound (Nat.succ_ne_zero 3)
  have hr : ({ v with locals := fun n => v.locals (n + 1) } : Inlet ρ).room = 4 - pos % 4 := h.room
  obtain ⟨-, ha₁⟩ := ha _ e (header_ahead_ne_nil p later w) h.ahead
  rw [hr] at hu ha₁
  have hmin : min 4 (4 - pos % 4) = 4 - pos % 4 := by omega
  rw [hmin, header_ahead, List.drop_append_of_le_length (by omega)] at ha₁
  obtain ⟨hcells, hunread, hreader⟩ := openFragment_rest hg ho
  refine ⟨⟨by rw [hcells]; exact h₁.1, by rw [hunread]; exact h₁.2⟩, ?_, ?_⟩
  · rw [Inlet.room, if_pos (by omega)]
  · rw [Ahead, window, hcells, hunread, hreader]
    exact ha₁

/-- A header across a block gives a byte of the header for the first byte of the fragment. -/
theorem header_fits (hx : T.Exact) (h : At T e v pos [] (p :: later) w) (hl : len ≠ 0)
    (hok : (v.getbytes T len).1 = true) (hb : pos % 4 ≠ 0) :
    ∃ b ∈ (toBytes (header later.isEmpty p.length)).drop 1, (v.getbytes T len).2.1.head? = some (some b) := by
  have hlast : ¬ v.lastFrag = true := by
    rw [h.last]
    simp
  obtain ⟨v₂, ho, hc, hgb⟩ := opened_of_met hl h.fbtbc hlast hok
  obtain ⟨h₂, hr₂, ha₂⟩ := cut_header hx h ho
  -- The second part of the header is not empty.
  have hlen : ((toBytes (header later.isEmpty p.length)).drop (4 - pos % 4)).length = pos % 4 := by
    rw [List.length_drop, length_toBytes]
    omega
  obtain ⟨b, bs, hcons⟩ := List.exists_cons_of_length_pos (hlen ▸ Nat.pos_of_ne_zero hb)
  obtain ⟨bs₂, v₃, hg₂, -, -, -, -, hbs⟩ := getInput_exact hx h₂ (n := min len v₂.fbtbc) (by omega)
  rw [hcons] at ha₂
  obtain ⟨hbs₂, -⟩ := hbs _ e (List.cons_ne_nil b _) ha₂
  refine ⟨b, ?_, ?_⟩
  · have hmem : b ∈ (toBytes (header later.isEmpty p.length)).drop (1 + (3 - pos % 4)) := by
      rw [show 1 + (3 - pos % 4) = 4 - pos % 4 by omega, hcons]
      exact List.mem_cons_self
    rw [← List.drop_drop] at hmem
    exact List.mem_of_mem_drop hmem
  · have hhead : bs₂.head? = some b := by
      rw [hbs₂, List.head?_take, if_neg (by omega)]
      rfl
    rw [hgb, getbytes_next hl hc hg₂]
    simp [List.head?_append, List.head?_map, hhead]

/-- What is served does not cross a block. -/
theorem within_of_served (hx : T.Exact) (h : At T e v pos cur later w) (hp : Sendable later) (hu : Unlike later)
    (hl : len ≤ (cur ++ later.flatten).length) (hok : (v.getbytes T len).1 = true)
    (hcells : (v.getbytes T len).2.1 = ((cur ++ later.flatten).take len).map some) :
    Within (later.map List.length) pos cur.length len := by
  have hn : none ∉ (v.getbytes T len).2.1 := by
    rw [hcells]
    intro hm
    obtain ⟨b, -, hb⟩ := List.mem_map.mp hm
    cases hb
  have hfit := copy_fits hx h hn
  induction later generalizing v pos cur len with
  | nil =>
    intro hc
    omega
  | cons p later ih =>
    rw [List.map_cons, Within]
    by_cases hc : len ≤ cur.length
    · rw [if_pos hc]
      omega
    · rw [if_neg hc]
      rw [Nat.min_eq_right (Nat.le_of_not_le hc)] at hfit
      obtain ⟨v₁, h₁, hg₁⟩ := getbytes_across hx h (Nat.not_le.mp hc) hfit
      have ht : (cur ++ (p :: later).flatten).take len = cur ++ (p ++ later.flatten).take (len - cur.length) := by
        rw [List.take_append, List.take_of_length_le (Nat.le_of_not_le hc), List.flatten_cons]
      rw [hg₁] at hok hcells hn
      simp only [ht, List.map_append, List.append_cancel_left_eq] at hcells
      have hl₂ : len - cur.length ≤ (p ++ later.flatten).length := by
        simp only [List.flatten_cons, List.length_append] at hl ⊢
        omega
      have hpne : p ≠ [] := by
        rintro rfl
        have hlater : later = [] := by
          by_contra hne
          exact hp.head_ne_nil hne rfl
        subst hlater
        simp at hl₂
        omega
      have hpos : len - cur.length ≠ 0 := by omega
      have hb : (pos + cur.length) % 4 = 0 := by
        by_contra hb
        obtain ⟨b, hmem, hhead⟩ := header_fits hx h₁ hpos hok hb
        obtain ⟨x, xs, rfl⟩ := List.exists_cons_of_ne_nil hpne
        obtain ⟨n, hn'⟩ := Nat.exists_eq_succ_of_ne_zero hpos
        rw [hcells, hn'] at hhead
        cases hhead
        exact hu _ List.mem_cons_self _ _ List.mem_cons_self hmem
      obtain ⟨v₂, h₂, hg₂⟩ := getbytes_header hx h₁ hp hpos hb
      rw [hg₂] at hok hcells
      have hn₂ : none ∉ (v₂.getbytes T (len - cur.length)).2.1 := by
        rw [← hg₂]
        intro hm
        exact hn (List.mem_append_right _ hm)
      exact ⟨⟨hfit, hb⟩, ih h₂ hp.tail (fun q hq => hu q (List.mem_cons_of_mem p hq)) hl₂ hok hcells hn₂
        (copy_fits hx h₂ hn₂)⟩

theorem unbroken_of_serves (hx : T.Exact) (h : At T e v pos cur later w) (hp : Sendable later) (hu : Unlike later)
    {rs : List Word} (hsum : (rs.map BitVec.toNat).sum ≤ (cur ++ later.flatten).length)
    (hs : v.Serves T (cur ++ later.flatten) rs) :
    Throughout Spot.next Spot.Clear ⟨pos, cur.length, later.map List.length⟩ rs := by
  induction rs generalizing v pos cur later with
  | nil => trivial
  | cons len rs ih =>
    rw [List.map_cons, List.sum_cons] at hsum
    have hl : len.toNat ≤ (cur ++ later.flatten).length := by omega
    rcases hg : v.getbytes T len.toNat with ⟨ok, cells, v'⟩
    rw [serves_cons hg] at hs
    obtain ⟨hok, hcells, hrest⟩ := hs
    have hok' := hok.mpr hl
    have hin : Within (later.map List.length) pos cur.length len.toNat :=
      within_of_served hx h hp hu hl (by rw [hg]; exact hok') (by rw [hg]; exact hcells hok')
    obtain ⟨v₁, pos', cur', later', hg₁, hf, h', hsuf, hdrop⟩ := getbytes_served hx h hp hin hl
    rw [hg] at hg₁
    cases hg₁
    refine ⟨hin, fun p hn => ?_⟩
    cases hn
    show Throughout _ _ (forward (later.map List.length) pos cur.length len.toNat) rs
    rw [hf]
    rw [← hdrop] at hrest
    refine ih h' (hp.suffix hsuf) (fun q hq => hu q (hsuf.subset hq)) ?_ hrest
    rw [hdrop, List.length_drop]
    omega

end Inlet

/-! ## The stream of the source -/

theorem Placed.serves {T : Transport ρ ω} {s : RecStrm ρ ω} (h : Placed s) (rest : List Byte) (rs : List Word) :
    Serves T s rest rs ↔ s.inlet.Serves T rest rs := by
  induction rs generalizing s rest with
  | nil => exact Iff.rfl
  | cons len rs ih =>
    obtain ⟨hg, h'⟩ := h.getbytes (T := T) len.toNat
    rw [Inlet.serves_cons hg, Serves, ← ih h']

theorem delivers_of_unbroken {off : Nat} {ls : List Nat} {rs : List Word} (h : Unbroken off ls rs) :
    Delivers off ls rs := by
  rintro ρ ω T s₀ s fuel k ps hx hr hs hoff hps hp rfl ⟨w, hw⟩
  obtain ⟨hpl, hat⟩ := opened_at hr.placed hs hoff hps hw
  rw [hpl.serves]
  exact Inlet.serves_of_unbroken hx hat hp h

/-! ## Records that are not delivered -/

section Reads

variable {T : Transport ρ ω} {s : RecStrm ρ ω} {e : ρ} {pos len : Nat} {cur q : List Byte} {later : List (List Byte)}
  {w : List Byte}

/-- A call that the fragment can meet. -/
theorem Placed.at_fragment (hs : Placed s) (hx : T.Exact) (h : Inlet.At T e s.inlet pos cur later w)
    (hl : len ≤ cur.length) (hb : pos % 4 + len ≤ 4) : Placed (flexxdrrecGetbytes T s len).2.2 ∧
      Inlet.At T e (flexxdrrecGetbytes T s len).2.2.inlet (pos + len) (cur.drop len) later w := by
  obtain ⟨v, hg, hv⟩ := Inlet.getbytes_fragment hx h hl hb
  obtain ⟨hi, hp⟩ := hs.getbytes (T := T) len
  rw [hg] at hi
  obtain rfl := (Prod.mk.inj (Prod.mk.inj hi).2).2
  exact ⟨hp, hv⟩

/-- A call that opens the next fragment first. -/
theorem Placed.at_header (hs : Placed s) (hx : T.Exact) (h : Inlet.At T e s.inlet pos [] (q :: later) w)
    (hq : Sendable (q :: later)) (hl : len ≤ q.length) (h0 : len ≠ 0) (hb : pos % 4 = 0) (h4 : len ≤ 4) :
    Placed (flexxdrrecGetbytes T s len).2.2 ∧
      Inlet.At T e (flexxdrrecGetbytes T s len).2.2.inlet (pos + 4 + len) (q.drop len) later w := by
  obtain ⟨v, hv, hg⟩ := Inlet.getbytes_header hx h hq h0 hb
  obtain ⟨v', hg', hv'⟩ := Inlet.getbytes_fragment hx hv hl (by omega)
  obtain ⟨hi, hp⟩ := hs.getbytes (T := T) len
  rw [hg, hg'] at hi
  obtain rfl := (Prod.mk.inj (Prod.mk.inj hi).2).2
  exact ⟨hp, hv'⟩

/-- At the end of a record the next one can be opened. -/
theorem skiprecord_ended (h : Inlet.At T e s.inlet pos [] [] w) (fuel : Nat) :
    flexxdrrecSkiprecord T s (fuel + 1) = some (true, { s with lastFrag := false }) := by
  have hf : s.fbtbc.toNat = 0 := h.fbtbc
  have hl : s.lastFrag = true := h.last
  apply recSkiprecord_done
  rintro (hg | hg)
  · omega
  · rw [hl] at hg
    cases hg

end Reads

/-- A record may start at any place of a block: it does after a record of four to seven bytes. -/
theorem exists_opened (off : Nat) (w : List Byte) : ∃ (s₀ s : RecStrm (Stream' Byte) Unit) (k : Nat), Reached flow s₀ ∧
    flexxdrrecSkiprecord flow s₀ 1 = some (true, s) ∧ (off + s.inlet.unread) % 4 = 0 ∧
    w <+: s.inlet.window ++ flow.supply s.reader k := by
  have hr : off % 4 < 4 := Nat.mod_lt off (Nat.succ_pos 3)
  generalize hq : List.replicate (4 + off % 4) (0 : Byte) = q
  have hql : q.length = 4 + off % 4 := by rw [← hq, List.length_replicate]
  obtain ⟨t, ht⟩ := flow_ahead (record [q] ++ w) (Stream'.const 0)
  obtain ⟨s₁, hs₁, hu₁, hw₁, hr₁⟩ :=
    create_opened flow 0 0 0 (fun _ => 0) ((record [q] ++ w) ++ₛ Stream'.const 0) () (fun _ => 0) 0
  have hahead : record [q] ++ (w ++ t) = s₁.inlet.window ++ flow.supply s₁.reader (record [q] ++ w).length := by
    rw [hw₁, hr₁, List.nil_append, ← ht, List.append_assoc]
  have hoff : (0 + s₁.inlet.unread) % 4 = 0 := by rw [hu₁]
  obtain ⟨h₁, hat₁⟩ := opened_at (Placed.create 0 0 0 (fun _ => 0) _ () fun _ => 0) hs₁ hoff (List.cons_ne_nil q [])
    hahead
  have hq₁ : Sendable [q] := by
    refine ⟨fun p hp => ?_, fun p hp => by cases hp⟩
    rw [List.mem_singleton.mp hp]
    omega
  -- The bytes of that record are read: four of them, and the others.
  let r : Word := .ofNat 32 (off % 4)
  have hrn : r.toNat = off % 4 := by
    rw [BitVec.toNat_ofNat, Nat.mod_eq_of_lt (by omega)]
  obtain ⟨h₂, hat₂⟩ := h₁.at_header flow_exact hat₁ hq₁ (show 4 ≤ q.length by omega) (Nat.succ_ne_zero 3) rfl
    (Nat.le_refl 4)
  have hlr : r.toNat = (q.drop 4).length := by
    rw [List.length_drop]
    omega
  obtain ⟨-, hat₃⟩ := h₂.at_fragment flow_exact hat₂ (Nat.le_of_eq hlr) (by omega)
  rw [hlr, List.drop_length, ← hlr] at hat₃
  obtain ⟨k, hk, -⟩ := hat₃.ahead
  refine ⟨_, _, k, ?_, skiprecord_ended hat₃ 0, ?_, ?_⟩
  · refine ⟨0, 0, 0, fun _ => 0, (record [q] ++ w) ++ₛ Stream'.const 0, (), fun _ => 0, 1,
      [.skiprecord, .getbytes 4, .getbytes r], ?_⟩
    have hstep₁ : recStep 1 flow (flexxdrrecCreate 0 0 0 (fun _ => 0) ((record [q] ++ w) ++ₛ Stream'.const 0) ()
        fun _ => 0) .skiprecord = some s₁ := by
      rw [recStep, RecOp.call, hs₁]
      rfl
    rw [run_cons hstep₁]
    rfl
  · have hb := hat₃.block
    show (off + (flexxdrrecGetbytes flow (flexxdrrecGetbytes flow s₁ 4).2.2 r.toNat).2.2.inlet.unread) % 4 = 0
    omega
  · exact ⟨t, hk.symm⟩

/-- Lengths that a record can be cut into. -/
structure Division (ls : List Nat) : Prop where
  ne_nil : ls ≠ []
  short : ∀ l ∈ ls, l < 2 ^ 31
  filled : ∀ l ∈ ls.dropLast, l ≠ 0

/-- There are fragments of these lengths that have no byte of their headers. -/
theorem exists_unlike {ls : List Nat} (h : Division ls) : ∃ ps, ps.map List.length = ls ∧ Sendable ps ∧ Unlike ps := by
  have hbyte : ∀ l, ∃ c : Byte, ∀ last, c ∉ (toBytes (header last l)).drop 1 := by
    intro l
    by_contra! hall
    have hsub : ([0, 1, 2, 3, 4, 5, 6] : List Byte) ⊆
        (toBytes (header true l)).drop 1 ++ (toBytes (header false l)).drop 1 := by
      intro c _
      obtain ⟨last, hm⟩ := hall c
      cases last with
      | true => exact List.mem_append_left _ hm
      | false => exact List.mem_append_right _ hm
    have hle := (List.subperm_of_subset (by decide) hsub).length_le
    simp [length_toBytes] at hle
  choose c hc using hbyte
  refine ⟨ls.map fun l => List.replicate l (c l), ?_, ⟨?_, ?_⟩, ?_⟩
  · simp [Function.comp_def]
  · intro p hp
    obtain ⟨l, hl, rfl⟩ := List.mem_map.mp hp
    rw [List.length_replicate]
    exact h.short l hl
  · intro p hp
    rw [← List.map_dropLast] at hp
    obtain ⟨l, hl, rfl⟩ := List.mem_map.mp hp
    simpa using h.filled l hl
  · intro p hp last b hb
    obtain ⟨l, hl, rfl⟩ := List.mem_map.mp hp
    rw [List.eq_of_mem_replicate hb, List.length_replicate]
    exact hc l last

theorem unbroken_of_delivers {off : Nat} {ls : List Nat} {rs : List Word} (h : Division ls)
    (hsum : (rs.map BitVec.toNat).sum ≤ ls.sum) (hd : Delivers off ls rs) : Unbroken off ls rs := by
  obtain ⟨ps, rfl, hp, hu⟩ := exists_unlike h
  have hps : ps ≠ [] := by
    rintro rfl
    exact h.ne_nil rfl
  obtain ⟨s₀, s, k, hr, hs, hoff, hw⟩ := exists_opened off (record ps)
  have hserves := hd _ _ flow s₀ s 1 k ps flow_exact hr hs hoff hps hp rfl hw
  obtain ⟨w, hw⟩ := hw
  obtain ⟨hpl, hat⟩ := opened_at hr.placed hs hoff hps hw
  rw [hpl.serves] at hserves
  exact Inlet.unbroken_of_serves flow_exact hat hp hu (by rwa [List.nil_append, List.length_flatten]) hserves

/-- Requests that do not cross a block are delivered, and of those that the record could meet no others are. -/
theorem delivers_iff (off : Nat) (ls : List Nat) (rs : List Word) (hls : Division ls) :
    (Unbroken off ls rs → Delivers off ls rs) ∧
      ((rs.map BitVec.toNat).sum ≤ ls.sum → (Delivers off ls rs ↔ Unbroken off ls rs)) := by
  refine ⟨delivers_of_unbroken, fun hsum => ?_⟩
  constructor
  · apply unbroken_of_delivers hls hsum
  · exact delivers_of_unbroken

/-- Word by word a record of three words is delivered. -/
theorem delivers_iff_words : Delivers 0 [4, 8] [4, 4, 4] := by
  refine (delivers_iff 0 [4, 8] [4, 4, 4] ⟨by simp, by simp, by simp⟩).1 ?_
  simp [Unbroken, Throughout, Spot.next, Spot.Clear, Within, forward]

/-- Two words at once are not. -/
theorem two_words_not_delivered : ¬ Delivers 0 [8] [8] := by
  intro h
  have hu : Unbroken 0 [8] [8] := unbroken_of_delivers ⟨by simp, by simp, by simp⟩ (by simp) h
  simp [Unbroken, Throughout, Spot.Clear, Within] at hu

end Cornflakes.Flexrpc

import Mathlib.Algebra.Order.BigOperators.Group.List
import Mathlib.Algebra.Order.Group.Nat
import Cornflakes.Flexrpc.Feed

/-!
# Records of words

When every fragment is a sequence of words, headers and words never cross from one block of four bytes of the wire into
the next. Then `flexxdrrec_getlong` reads the words of a record one by one and stops at its end (`getlong_at`), and
`flexxdrrec_skiprecord` gets from any word of a record to the start of the next (`skiprecord_at`), so that a receiver may
read as much of each record as it likes (`skip_resyncs`).
-/

set_option autoImplicit false

namespace Cornflakes.Flexrpc

open Wire

variable {ρ ω : Type}

/-- A record of words, cut into fragments, and how often the receiver asks for a word of it. -/
structure Visit where
  frags : List (List Word)
  asks : Nat

/-- What `n` calls of `flexxdrrec_getlong` give: the words one by one, and FALSE after them. -/
def answers (ws : List Word) (n : Nat) : List RecResult :=
  (ws.take n).map (fun w => .long (some (w.signExtend 64))) ++ List.replicate (n - ws.length) (.long none)

namespace Visit

def wire (v : Visit) : List Byte := record (v.frags.map words)

def calls (v : Visit) : List TakeOp := .skiprecord :: List.replicate v.asks .getlong

def results (v : Visit) : List RecResult := .bool true :: answers v.frags.flatten v.asks

/-- A record has a fragment, lengths in bytes have 31 bits, and only the last fragment may be empty. -/
structure Sound (v : Visit) : Prop where
  ne_nil : v.frags ≠ []
  short : ∀ ws ∈ v.frags, 4 * ws.length < 2 ^ 31
  filled : ∀ ws ∈ v.frags.dropLast, ws ≠ []

theorem Sound.sendable {v : Visit} (h : v.Sound) : Sendable (v.frags.map words) := by
  refine ⟨fun p hp => ?_, fun p hp => ?_⟩
  · obtain ⟨ws, hws, rfl⟩ := List.mem_map.mp hp
    rw [length_words]
    exact h.short ws hws
  · rw [← List.map_dropLast] at hp
    obtain ⟨ws, hws, rfl⟩ := List.mem_map.mp hp
    intro h0
    apply h.filled ws hws
    have hl := length_words ws
    rw [h0] at hl
    exact List.length_eq_zero_iff.mp (by simpa using hl.symm)

end Visit

theorem answers_zero (ws : List Word) : answers ws 0 = [] := by
  simp [answers]

theorem answers_succ (ws : List Word) (n : Nat) :
    answers ws (n + 1) = .long (ws.head?.map fun w => w.signExtend 64) :: answers ws.tail n := by
  cases ws with
  | nil => simp [answers, List.replicate_succ]
  | cons w ws => simp [answers]

namespace Inlet

variable {T : Transport ρ ω} {e : ρ} {v v' : Inlet ρ} {x : Word} {cw ws : List Word} {lw : List (List Word)}
  {w : List Byte}

/-- The inlet stands before a word: `cw` are left in the fragment and `lw` in those after it. -/
def AtWord (T : Transport ρ ω) (e : ρ) (v : Inlet ρ) (cw : List Word) (lw : List (List Word)) (w : List Byte) : Prop :=
  Sendable (lw.map words) ∧ ∃ pos, pos % 4 = 0 ∧ At T e v pos (words cw) (lw.map words) w

theorem At.enter {pos : Nat} {cur : List Byte} {later : List (List Byte)} (h : At T e v pos cur later w) :
    At T e { v with locals := fun n => v.locals (n + 1) } pos cur later w :=
  ⟨h.sound, h.block, h.fbtbc, h.last, h.ahead⟩

/-! ## One word -/

theorem getbytes_word (hx : T.Exact) {pos : Nat} {later : List (List Byte)} (hpos : pos % 4 = 0)
    (h : At T e v pos (words (x :: cw)) later w) :
    ∃ v', v.getbytes T 4 = (true, (toBytes x).map some, v') ∧ At T e v' (pos + 4) (words cw) later w := by
  have hlen : (toBytes x).length = 4 := length_toBytes x
  rw [words_cons] at h
  have hl : 4 ≤ (toBytes x ++ words cw).length := by
    rw [List.length_append]
    omega
  obtain ⟨v', hb, h'⟩ := getbytes_fragment hx h hl (by omega)
  rw [List.take_left' hlen] at hb
  rw [List.drop_left' hlen] at h'
  exact ⟨v', hb, h'⟩

/-- A word of the fragment. -/
theorem getlong_word (hx : T.Exact) (h : AtWord T e v (x :: cw) lw w) :
    ∃ v', v.getlong T = (some (x.signExtend 64), v') ∧ AtWord T e v' cw lw w := by
  obtain ⟨hp, pos, hpos, hat⟩ := h
  by_cases hg : v.fbtbc ≥ 4 ∧ v.unread ≥ 4
  · -- The word is in the window.
    have hlen : (toBytes x).length = 4 := length_toBytes x
    have hf := hat.fbtbc
    have hb := hat.block
    obtain ⟨ht, ha⟩ := hat.ahead.drop hat.sound hg.2
    rw [words_cons, List.append_assoc, List.take_left' hlen] at ht
    rw [words_cons, List.append_assoc, List.drop_left' hlen] at ha
    refine ⟨{ v.drop 4 with fbtbc := v.fbtbc - 4 }, ?_, hp, pos + 4, by omega, hat.sound.drop 4, ?_, ?_, hat.last, ha⟩
    · rw [getlong, if_pos hg, ← ht, overlay_word]
    · show (pos + 4 + (v.unread - 4)) % 4 = 0
      omega
    · simp at hf ⊢
      omega
  · obtain ⟨v', hb, h'⟩ := getbytes_word hx hpos hat.enter
    refine ⟨v', ?_, hp, pos + 4, by omega, h'⟩
    rw [getlong_slow hg hb, overlay_word]
    rfl

/-- At the end of a fragment that is not the last. -/
theorem getlong_header (hx : T.Exact) (h : AtWord T e v [] (ws :: lw) w) :
    ∃ v', v.getlong T = (ws.head?.map (fun x => x.signExtend 64), v') ∧ AtWord T e v' ws.tail lw w := by
  obtain ⟨hp, pos, hpos, hat⟩ := h
  have hg : ¬ (v.fbtbc ≥ 4 ∧ v.unread ≥ 4) := by
    rw [hat.fbtbc]
    simp
  obtain ⟨v₁, h₁, ho⟩ := getbytes_header hx hat.enter hp (Nat.succ_ne_zero 3) hpos
  cases ws with
  | nil =>
    -- Only the last fragment can be empty.
    have hl : lw = [] := by
      by_contra hne
      exact hp.head_ne_nil (by simpa using hne) rfl
    subst hl
    rw [getbytes_last (Nat.succ_ne_zero 3) h₁.fbtbc h₁.last] at ho
    exact ⟨v₁, getlong_slow hg ho, hp.tail, pos + 4, by omega, h₁⟩
  | cons x ws =>
    obtain ⟨v', hb, h'⟩ := getbytes_word hx (by omega) h₁
    rw [hb] at ho
    refine ⟨v', ?_, hp.tail, pos + 4 + 4, by omega, h'⟩
    rw [getlong_slow hg ho, overlay_word]
    rfl

/-- At the end of the record. -/
theorem getlong_end (h : AtWord T e v [] [] w) : ∃ v', v.getlong T = (none, v') ∧ AtWord T e v' [] [] w := by
  obtain ⟨hp, pos, hpos, hat⟩ := h
  have hg : ¬ (v.fbtbc ≥ 4 ∧ v.unread ≥ 4) := by
    rw [hat.fbtbc]
    simp
  have hb := getbytes_last (T := T) (Nat.succ_ne_zero 3) hat.enter.fbtbc hat.enter.last
  exact ⟨_, getlong_slow hg hb, hp, pos, hpos, hat.enter⟩

/-- `flexxdrrec_getlong` gives the next word, or FALSE when there is none. -/
theorem getlong_at (hx : T.Exact) (h : AtWord T e v cw lw w) : ∃ v' cw' lw',
    v.getlong T = ((cw ++ lw.flatten).head?.map (fun x => x.signExtend 64), v') ∧ AtWord T e v' cw' lw' w ∧
      lw'.length ≤ lw.length ∧ cw' ++ lw'.flatten = (cw ++ lw.flatten).tail ∧ (cw ++ lw.flatten = [] → lw' = []) := by
  cases cw with
  | cons x cw =>
    obtain ⟨v', hg, h'⟩ := getlong_word hx h
    exact ⟨v', cw, lw, hg, h', Nat.le_refl _, rfl, fun h0 => by cases h0⟩
  | nil =>
    cases lw with
    | nil =>
      obtain ⟨v', hg, h'⟩ := getlong_end h
      exact ⟨v', [], [], hg, h', Nat.le_refl _, rfl, fun _ => rfl⟩
    | cons ws lw =>
      obtain ⟨v', hg, h'⟩ := getlong_header hx h
      have hl : ws = [] → lw = [] := by
        rintro rfl
        by_contra hne
        exact h.1.head_ne_nil (by simpa using hne) rfl
      refine ⟨v', ws.tail, lw, ?_, h', Nat.le_succ _, ?_, ?_⟩
      · cases ws with
        | nil =>
          rw [hl rfl]
          exact hg
        | cons x ws => exact hg
      · cases ws with
        | nil =>
          rw [hl rfl]
          rfl
        | cons x ws => rfl
      · intro h0
        simp at h0
        exact hl h0.1

/-- Some words of a record. -/
theorem getlongs_at (hx : T.Exact) (fuel : Nat) (h : AtWord T e v cw lw w) (n : Nat) : ∃ v' cw' lw',
    outputs (Inlet.call fuel T) v (List.replicate n .getlong) = some (answers (cw ++ lw.flatten) n, v') ∧
      AtWord T e v' cw' lw' w ∧ lw'.length ≤ lw.length ∧ cw' ++ lw'.flatten = (cw ++ lw.flatten).drop n ∧
      ((cw ++ lw.flatten).length < n → lw' = []) := by
  induction n generalizing v cw lw with
  | zero =>
    refine ⟨v, cw, lw, ?_, h, Nat.le_refl _, rfl, fun hn => by cases hn⟩
    rw [answers_zero]
    rfl
  | succ n ih =>
    obtain ⟨v₁, cw₁, lw₁, hg, h₁, hl₁, ht, he⟩ := getlong_at hx h
    obtain ⟨v', cw', lw', ho, h', hl', hd, hn⟩ := ih h₁
    have hc : v.call fuel T .getlong = some (.long ((cw ++ lw.flatten).head?.map fun x => x.signExtend 64), v₁) := by
      rw [Inlet.call, hg]
    refine ⟨v', cw', lw', ?_, h', Nat.le_trans hl' hl₁, ?_, ?_⟩
    · rw [List.replicate_succ, answers_succ, ← ht]
      exact outputs_cons hc ho
    · rw [hd, ht, List.drop_tail]
    · intro hlt
      by_cases h0 : cw ++ lw.flatten = []
      · rw [he h0] at hl'
        exact List.length_eq_zero_iff.mp (Nat.le_zero.mp hl')
      · apply hn
        rw [ht, List.length_tail]
        have hpos := List.length_pos_iff.mpr h0
        omega

/-! ## To the next record -/

/-- The inlet stands at the start of a record, which `flexxdrrec_skiprecord` has opened. -/
structure Opened (T : Transport ρ ω) (e : ρ) (v : Inlet ρ) (w : List Byte) : Prop where
  sound : v.Sound
  block : v.unread % 4 = 0
  fbtbc : v.fbtbc = 0
  last : v.lastFrag = false
  ahead : v.Ahead T w e

theorem Opened.at_word (h : Opened T e v (record (lw.map words) ++ w)) (hl : lw ≠ []) (hs : Sendable (lw.map words)) :
    AtWord T e v [] lw w := by
  refine ⟨hs, 0, rfl, h.sound, ?_, h.fbtbc, ?_, h.ahead⟩
  · rw [Nat.zero_add]
    exact h.block
  · rw [h.last]
    cases lw with
    | nil => exact absurd rfl hl
    | cons ws lw => rfl

/-- `flexxdrrec_skiprecord` goes over what is left of the record, and over nothing else. -/
theorem skiprecord_at (hx : T.Exact) (h : AtWord T e v cw lw w) {fuel : Nat} (hf : lw.length + 2 ≤ fuel) :
    ∃ v', v.skiprecord T fuel = some (true, v') ∧ Opened T e v' w := by
  induction lw generalizing v cw fuel with
  | nil =>
    obtain ⟨n, rfl⟩ := Nat.exists_eq_add_of_le' (show 2 ≤ fuel from hf)
    obtain ⟨hp, pos, hpos, hat⟩ := h
    have hdone {v : Inlet ρ} {pos : Nat} (hpos : pos % 4 = 0) (h : At T e v pos [] [] w) (n : Nat) :
        ∃ v', v.skiprecord T (n + 1) = some (true, v') ∧ Opened T e v' w := by
      have hb := h.block
      have hg : ¬ (v.fbtbc > 0 ∨ v.lastFrag = false) := by
        rw [h.fbtbc, h.last]
        simp
      exact ⟨_, skiprecord_done hg, h.sound, show v.unread % 4 = 0 by omega, h.fbtbc, rfl, h.ahead⟩
    by_cases hc : v.fbtbc > 0 ∨ v.lastFrag = false
    · obtain ⟨v', hk, hl, h'⟩ := hat.skip hx
      have hpos' : (pos + (words cw).length) % 4 = 0 := by
        rw [length_words]
        omega
      rw [skiprecord_last hc hk (hl.trans hat.last)]
      exact hdone hpos' h' n
    · have hcw : words cw = [] := by
        apply List.length_eq_zero_iff.mp
        rw [← hat.fbtbc]
        omega
      rw [hcw] at hat
      exact hdone hpos hat (n + 1)
  | cons ws lw ih =>
    obtain ⟨n, rfl⟩ := Nat.exists_eq_add_of_le' (show 1 ≤ fuel by omega)
    obtain ⟨hp, pos, hpos, hat⟩ := h
    have hlast : v.lastFrag = false := hat.last
    obtain ⟨v₁, hk, hl, h₁⟩ := hat.skip hx
    have hpos' : (pos + (words cw).length) % 4 = 0 := by
      rw [length_words]
      omega
    obtain ⟨v₂, ho, h₂⟩ := h₁.openFragment hx hp hpos'
    rw [skiprecord_open (Or.inr hlast) hk (hl.trans hlast) ho]
    refine ih ⟨hp.tail, _, ?_, h₂⟩ ?_
    · omega
    · rw [List.length_cons] at hf
      omega

/-! ## All records -/

/-- At the end of all that is ahead the reader has supplied that and nothing more. -/
theorem AtWord.reader_eq (hx : T.Exact) (h : AtWord T e v [] [] []) : v.reader = e := by
  obtain ⟨-, pos, -, hat⟩ := h
  obtain ⟨k, hk, he⟩ := hat.ahead
  cases k with
  | zero => exact he
  | succ k =>
    have hl := congrArg List.length hk
    have h4 := hx.length v.reader 4
    simp [Transport.supply, record] at hl
    rw [hl.2.1] at h4
    cases h4

theorem visits_at (hx : T.Exact) {vs : List Visit} (hv : ∀ x ∈ vs, x.Sound) {fuel : Nat}
    (hf : ∀ x ∈ vs, x.frags.length + 2 ≤ fuel) (hl : lw.length + 2 ≤ fuel)
    (h : AtWord T e v cw lw (vs.flatMap Visit.wire)) : ∃ v',
    outputs (Inlet.call fuel T) v (vs.flatMap Visit.calls) = some (vs.flatMap Visit.results, v') ∧
      ∀ x ∈ vs.getLast?, x.frags.flatten.length < x.asks → v'.reader = e := by
  induction vs generalizing v cw lw with
  | nil => exact ⟨v, rfl, fun x hx => by cases hx⟩
  | cons x vs ih =>
    have hs := hv x List.mem_cons_self
    obtain ⟨v₁, hk, h₁⟩ := skiprecord_at hx h hl
    have hc : v.call fuel T .skiprecord = some (.bool true, v₁) := by
      rw [Inlet.call, hk]
      rfl
    obtain ⟨v₂, cw₂, lw₂, ho₂, h₂, hl₂, hd₂, hn₂⟩ :=
      getlongs_at hx fuel (Opened.at_word h₁ hs.ne_nil hs.sendable) x.asks
    have hxf := hf x List.mem_cons_self
    obtain ⟨v', ho', he'⟩ := ih (fun y hy => hv y (List.mem_cons_of_mem x hy))
      (fun y hy => hf y (List.mem_cons_of_mem x hy)) (by omega) h₂
    refine ⟨v', outputs_append (outputs_cons hc ho₂) ho', fun y hy hlt => ?_⟩
    cases vs with
    | nil =>
      cases hy
      cases ho'
      replace hlt : x.frags.flatten.length < x.asks := hlt
      have hlw := hn₂ hlt
      subst hlw
      rw [List.nil_append, List.drop_of_length_le (Nat.le_of_lt hlt)] at hd₂
      rw [(List.append_eq_nil_iff.mp hd₂).1] at h₂
      exact h₂.reader_eq hx
    | cons z vs => exact he' y (by simpa using hy) hlt

end Inlet

/-- The records are read word by word, as many words of each as there are and are asked for, and a word that is asked
for at the end of a record is refused before anything of the next record is read. -/
theorem skip_resyncs (T : Transport ρ ω) (hx : T.Exact) (sendsize recvsize : Word) (buf : Int) (mem : Heap Byte)
    (reader : ρ) (writer : ω) (locals : Nat → Word) (vs : List Visit) (hv : ∀ v ∈ vs, v.Sound) (k : Nat)
    (hw : T.supply reader k = vs.flatMap Visit.wire) :
    ∃ n, ∀ fuel, n ≤ fuel → ∃ s,
      outputs (takeStep fuel T) (flexxdrrecCreate sendsize recvsize buf mem reader writer locals)
        (vs.flatMap Visit.calls) = some (vs.flatMap Visit.results, s) ∧
      ∀ v ∈ vs.getLast?, v.frags.flatten.length < v.asks → s.reader = T.after reader k := by
  refine ⟨(vs.map fun v => v.frags.length).sum + 2, fun fuel hn => ?_⟩
  have hp := Placed.create sendsize recvsize buf mem reader writer locals
  have hf : ∀ v ∈ vs, v.frags.length + 2 ≤ fuel := by
    intro v hmem
    have hle := List.single_le_sum (fun _ _ => Nat.zero_le _) _ (List.mem_map_of_mem (f := fun v => v.frags.length) hmem)
    omega
  have hat : Inlet.AtWord T (T.after reader k)
      (flexxdrrecCreate sendsize recvsize buf mem reader writer locals).inlet [] [] (vs.flatMap Visit.wire) := by
    refine ⟨⟨(fun p hp => by cases hp), (fun p hp => by cases hp)⟩, 0, rfl, hp.sound, ?_, rfl, rfl, k, ?_, rfl⟩
    · rw [create_unread]
    · rw [create_window, ← hw]
      rfl
  have hl : ([] : List (List Word)).length + 2 ≤ fuel := Nat.le_trans (Nat.le_add_left 2 _) hn
  obtain ⟨v', ho, he⟩ := Inlet.visits_at hx hv hf hl hat
  have hmap := hp.outputs_inlet T fuel (vs.flatMap Visit.calls)
  rw [ho] at hmap
  obtain ⟨⟨rs, s⟩, hs, he'⟩ := Option.map_eq_some_iff.mp hmap.symm
  cases he'
  exact ⟨s, hs, he⟩

/-- Two records, the second with an empty last fragment; one word of the first is read, and one more than there are of
the second. -/
def twoVisits : List Visit := [⟨[[1, 2], [3]], 1⟩, ⟨[[4], []], 2⟩]

theorem skip_resyncs_two : ∃ n, ∀ fuel, n ≤ fuel → ∃ s,
    outputs (takeStep fuel flow)
      (flexxdrrecCreate 0 0 0 (fun _ => 0) (twoVisits.flatMap Visit.wire ++ₛ Stream'.const 0) () fun _ => 0)
      (twoVisits.flatMap Visit.calls) = some (twoVisits.flatMap Visit.results, s) ∧
    ∀ v ∈ twoVisits.getLast?, v.frags.flatten.length < v.asks →
      s.reader = flow.after (twoVisits.flatMap Visit.wire ++ₛ Stream'.const 0) 8 := by
  refine skip_resyncs flow flow_exact 0 0 0 (fun _ => 0) _ () (fun _ => 0) twoVisits ?_ 8 (flow_whole _ rfl)
  intro v hv
  simp only [twoVisits, List.mem_cons, List.not_mem_nil, or_false] at hv
  rcases hv with rfl | rfl
  · exact ⟨by simp, by simp, by simp⟩
  · exact ⟨by simp, by simp, by simp⟩

end Cornflakes.Flexrpc

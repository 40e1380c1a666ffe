import Mathlib.Algebra.Ring.Nat
import Mathlib.Data.List.Basic

/-!
# Big-endian 32-bit words

- `toBytes w` are the four bytes of `w`, most significant first, and `ofBytes` puts four bytes together
  (`ofBytes_toBytes`, `toBytes_ofBytes`, `toBytes_inj`);
- `words ws` is a sequence of words on the wire, and the words at the front of a byte string are unique
  (`words_append_inj`);
- `wordsOf bs` are the complete words at the front of `bs`, which is these and less than a word (`words_wordsOf`);
- the widenings of a word to 64 bits and back (`setWidth_signExtend`, `setWidth_fits`), and rounding down to whole
  words by a mask (`toNat_and_not_three`).
-/

set_option autoImplicit false

namespace Wire

abbrev Byte := BitVec 8
abbrev Word := BitVec 32

/-- The four bytes of a word, most significant first. -/
def toBytes (w : Word) : List Byte :=
  [w.extractLsb' 24 8, w.extractLsb' 16 8, w.extractLsb' 8 8, w.extractLsb' 0 8]

/-- The word with the given four bytes. -/
def ofBytes (a b c d : Byte) : Word := a ++ b ++ c ++ d

@[simp] theorem length_toBytes (w : Word) : (toBytes w).length = 4 := rfl

theorem ofBytes_toBytes (w : Word) :
    ofBytes (w.extractLsb' 24 8) (w.extractLsb' 16 8) (w.extractLsb' 8 8) (w.extractLsb' 0 8) = w := by
  apply BitVec.eq_of_getLsbD_eq
  intro i hi
  simp only [ofBytes, BitVec.getLsbD_append, BitVec.getLsbD_extractLsb']
  grind

theorem toBytes_ofBytes (a b c d : Byte) : toBytes (ofBytes a b c d) = [a, b, c, d] := by
  simp only [toBytes, ofBytes, List.cons.injEq]
  refine ⟨?_, ?_, ?_, ?_, trivial⟩ <;>
  · apply BitVec.eq_of_getLsbD_eq
    intro i hi
    simp only [BitVec.getLsbD_append, BitVec.getLsbD_extractLsb']
    grind

theorem toBytes_inj {v w : Word} (h : toBytes v = toBytes w) : v = w := by
  rw [← ofBytes_toBytes v, ← ofBytes_toBytes w]
  simp only [toBytes, List.cons.injEq, and_true] at h
  obtain ⟨h₁, h₂, h₃, h₄⟩ := h
  rw [h₁, h₂, h₃, h₄]

/-! ## Words at the front of a byte string -/

/-- A byte string is shorter than a word or starts with one. -/
theorem word_cases (bs : List Byte) : bs.length < 4 ∨ ∃ w r, bs = toBytes w ++ r := by
  match bs with
  | a :: b :: c :: d :: r => exact Or.inr ⟨ofBytes a b c d, r, by rw [toBytes_ofBytes]; rfl⟩
  | [] | [_] | [_, _] | [_, _, _] => exact Or.inl (by simp)

/-- Four bytes are a word. -/
theorem exists_toBytes {bs : List Byte} (h : bs.length = 4) : ∃ w, bs = toBytes w := by
  rcases word_cases bs with hlt | ⟨w, r, rfl⟩
  · exact absurd h (Nat.ne_of_lt hlt)
  · rw [List.length_append, length_toBytes] at h
    have hr : r = [] := List.length_eq_zero_iff.mp (by omega)
    exact ⟨w, by rw [hr, List.append_nil]⟩

@[simp] theorem drop_toBytes (w : Word) (r : List Byte) : (toBytes w ++ r).drop 4 = r := rfl

@[simp] theorem take_toBytes (w : Word) (r : List Byte) : (toBytes w ++ r).take 4 = toBytes w := rfl

theorem toBytes_append_inj {v w : Word} {r s : List Byte} (h : toBytes v ++ r = toBytes w ++ s) : v = w ∧ r = s := by
  obtain ⟨hw, hr⟩ := List.append_inj h rfl
  exact ⟨toBytes_inj hw, hr⟩

/-- A sequence of words on the wire. -/
def words (ws : List Word) : List Byte := ws.flatMap toBytes

@[simp] theorem words_nil : words [] = [] := rfl

theorem words_cons (w : Word) (ws : List Word) : words (w :: ws) = toBytes w ++ words ws := rfl

theorem words_append (vs ws : List Word) : words (vs ++ ws) = words vs ++ words ws := List.flatMap_append

@[simp] theorem length_words (ws : List Word) : (words ws).length = 4 * ws.length := by
  induction ws with
  | nil => rfl
  | cons w ws ih => simp only [words_cons, List.length_append, length_toBytes, ih, List.length_cons]; omega

/-- Equally many words in front of two equal byte strings are equal. -/
theorem words_append_inj {vs ws : List Word} {r s : List Byte} (hl : vs.length = ws.length)
    (h : words vs ++ r = words ws ++ s) : vs = ws ∧ r = s := by
  induction vs generalizing ws with
  | nil =>
    cases ws with
    | nil => exact ⟨rfl, h⟩
    | cons w ws => cases hl
  | cons v vs ih =>
    cases ws with
    | nil => cases hl
    | cons w ws =>
      simp only [words_cons, List.append_assoc] at h
      obtain ⟨rfl, hr⟩ := toBytes_append_inj h
      obtain ⟨rfl, hs⟩ := ih (by simpa using hl) hr
      exact ⟨rfl, hs⟩

/-- A byte string starts with two words or is too short for them. -/
theorem two_words_cases (bs : List Byte) : bs.length < 8 ∨ ∃ v w r, bs = words [v, w] ++ r := by
  obtain h | ⟨v, r, rfl⟩ := word_cases bs
  · exact Or.inl (by omega)
  · obtain h | ⟨w, r, rfl⟩ := word_cases r
    · exact Or.inl (by rw [List.length_append, length_toBytes]; omega)
    · exact Or.inr ⟨v, w, r, by simp [words]⟩

theorem two_words_inj {v w v' w' : Word} {r r' : List Byte} (h : words [v, w] ++ r = words [v', w'] ++ r') :
    v = v' ∧ w = w' ∧ r = r' := by
  obtain ⟨hw, hr⟩ := words_append_inj (show [v, w].length = [v', w'].length from rfl) h
  simp only [List.cons.injEq, and_true] at hw
  exact ⟨hw.1, hw.2, hr⟩

/-- The complete words at the front of a byte string. -/
def wordsOf : List Byte → List Word
  | a :: b :: c :: d :: r => ofBytes a b c d :: wordsOf r
  | _ => []

theorem wordsOf_short {bs : List Byte} (h : bs.length < 4) : wordsOf bs = [] := by
  match bs with
  | [] | [_] | [_, _] | [_, _, _] => rfl
  | _ :: _ :: _ :: _ :: _ => exact absurd h (by simp only [List.length_cons]; omega)

/-- A byte string is its complete words and less than a word after them. -/
theorem words_wordsOf (bs : List Byte) : ∃ r, r.length < 4 ∧ bs = words (wordsOf bs) ++ r := by
  induction bs using wordsOf.induct with
  | case1 a b c d r ih =>
    obtain ⟨s, hs, he⟩ := ih
    refine ⟨s, hs, ?_⟩
    rw [wordsOf, words_cons, toBytes_ofBytes, List.append_assoc, ← he]
    rfl
  | case2 bs hn =>
    have h4 : bs.length < 4 := (word_cases bs).resolve_right fun ⟨w, r, h⟩ => hn _ _ _ _ _ h
    exact ⟨bs, h4, by rw [wordsOf_short h4]; rfl⟩

/-! ## Widths -/

/-- Sign extension does not change the low bits. -/
theorem setWidth_signExtend {m n : Nat} (w : BitVec m) (h : m ≤ n) : (w.signExtend n).setWidth m = w := by
  apply BitVec.eq_of_getLsbD_eq
  intro i hi
  simp only [BitVec.getLsbD_setWidth, BitVec.getLsbD_signExtend]
  grind

/-- A wide word survives the narrow width exactly when it is below the narrow bound. -/
theorem setWidth_fits {m n : Nat} (w : BitVec n) : (w.setWidth m).setWidth n = w ↔ w.toNat < 2 ^ m := by
  rw [← BitVec.toNat_inj, BitVec.toNat_setWidth, BitVec.toNat_setWidth]
  have hw : w.toNat < 2 ^ n := w.isLt
  have hm : w.toNat % 2 ^ m ≤ w.toNat := Nat.mod_le _ _
  rw [Nat.mod_eq_of_lt (by omega : w.toNat % 2 ^ m < 2 ^ n)]
  constructor
  · intro h
    rw [← h]
    exact Nat.mod_lt _ (Nat.two_pow_pos m)
  · exact Nat.mod_eq_of_lt

/-- Widening and narrowing again gives the word back. -/
theorem setWidth_setWidth {m n : Nat} (w : BitVec m) (h : m ≤ n) : (w.setWidth n).setWidth m = w := by
  rw [BitVec.setWidth_setWidth_of_le _ h, BitVec.setWidth_eq]

/-- Clearing the two low bits rounds down to whole words. -/
theorem toNat_and_not_three (w : Word) : (w &&& ~~~(4 - 1)).toNat = 4 * (w.toNat / 4) := by
  have hbit (i : Nat) (h : ¬ i < 32) : w.toNat.testBit i = false := by
    have hle : 2 ^ 32 ≤ 2 ^ i := Nat.pow_le_pow_right (by omega) (by omega)
    exact Nat.testBit_lt_two_pow (Nat.lt_of_lt_of_le w.isLt hle)
  rw [BitVec.toNat_and, show (~~~(4 - 1) : Word).toNat = 2 ^ 32 - (3 + 1) from rfl]
  apply Nat.eq_of_testBit_eq
  intro i
  rw [Nat.testBit_and, Nat.testBit_two_pow_sub_succ (by omega), show (3 : Nat) = 2 ^ 2 - 1 from rfl,
    Nat.testBit_two_pow_sub_one, show (4 : Nat) = 2 ^ 2 from rfl, Nat.testBit_two_pow_mul, Nat.testBit_div_two_pow]
  by_cases hi : i < 2
  · have hge : ¬ i ≥ 2 := by omega
    simp [hi, hge]
  · have hge : i ≥ 2 := by omega
    have hadd : i - 2 + 2 = i := by omega
    rw [hadd, decide_eq_true hge, decide_eq_false hi, Bool.not_false, Bool.and_true, Bool.true_and]
    by_cases h32 : i < 32
    · rw [decide_eq_true h32, Bool.and_true]
    · rw [hbit i h32, Bool.false_and]

end Wire

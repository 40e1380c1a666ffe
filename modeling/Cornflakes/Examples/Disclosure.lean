import Cornflakes.Examples.Server

/-!
# What an answer discloses

`flexxdr_string` stores no NUL behind the bytes that it decodes into a buffer, and leaves the buffer alone when the call
brings fewer bytes than it announces. The server answers all the same, with the string that it then finds in the buffer.
So an answer is one to the call alone, and not to what was in the buffer before, if and only if the call brings a NUL
among the bytes of the name or leaves but one byte of the buffer (`discreet_iff`).
-/

set_option autoImplicit false

namespace Cornflakes.Examples

open Wire Flexrpc

/-- A call of the service that announces `n` bytes for the name. -/
def callBytes (xid n : Word) (r : List Byte) : List Byte := words (serviceWords xid) ++ (toBytes n ++ r)

/-- All answers to these bytes are the same, whatever the server finds in its storage. -/
def Discreet (O : Oats) (bs : List Byte) : Prop :=
  ∀ st st' shown shown' out out', serverFunc O st bs = .ok (shown, out) → serverFunc O st' bs = .ok (shown', out') →
    out = out'

/-! ## The buffer for the name -/

/-- What is left in the buffer for the name, in which was `name`. -/
def nameLeft (n : Word) (r name : List Byte) : List Byte :=
  if 52 < n.toNat then name else r.take n.toNat ++ name.drop n.toNat

section Name

variable {n : Word} {r title : List Byte}

/-- What was in the buffer for the name stays out of the way of the title. -/
theorem callArgsInto_name (hr : r.length = 52) (title : List Byte) : ∃ o : Option (Bool × List Byte × List Byte),
    (∀ name, name.length = 36 → callArgsInto name title (toBytes n ++ r) =
      o.map fun (ok, title, r') => (ok, (nameLeft n r name, title), r')) ∧
    (36 < n.toNat → n.toNat ≤ 52 → o = none) := by
  by_cases hn : 52 < n.toNat
  · refine ⟨some (false, title, r), fun name _ => ?_, fun _ h => absurd hn (Nat.not_lt.mpr h)⟩
    rw [callArgsInto, stringInto_word, if_pos (Or.inr (by rw [hr]; exact hn)), nameLeft, if_pos hn]
    rfl
  have hp : Passes n maxStringSize := by
    have hp : Passes (narrowed n.toNat) maxStringSize := narrowed_passes (by omega) (show n.toNat ≤ 255 by omega)
    rwa [narrowed, BitVec.ofNat_toNat, BitVec.setWidth_eq] at hp
  have hin : ¬ (¬ Passes n maxStringSize ∨ r.length < n.toNat) := not_or.mpr ⟨not_not.mpr hp, by rw [hr]; exact hn⟩
  have hround : ¬ r.length < rounded n.toNat := by
    rw [hr, rounded]
    omega
  by_cases h36 : 36 < n.toNat
  · refine ⟨none, fun name hl => ?_, fun _ _ => rfl⟩
    rw [callArgsInto, stringInto_word, if_neg hin, if_pos (by rw [hl]; exact h36)]
    rfl
  · refine ⟨stringInto maxStringSize title (r.drop (rounded n.toNat)), fun name hl => ?_, fun h => absurd h h36⟩
    rw [callArgsInto, stringInto_word, if_neg hin, if_neg (by rw [hl]; exact h36), if_neg hround, nameLeft, if_neg hn]

end Name

/-! ## Strings in buffers -/

section Strings

variable {a b s : List Byte} {x : Byte}

theorem holds_append_nul (ha : 0 ∉ a) (b : List Byte) : Holds (a ++ 0 :: b) a := ⟨ha, b, rfl⟩

/-- A string that ends early is the same whatever comes behind it. -/
theorem Holds.of_append (h : Holds (a ++ b) s) (ha : 0 ∈ a) : Holds a s := by
  obtain ⟨t, q, rfl, ht⟩ := List.eq_append_cons_of_mem ha
  have hs : Holds (t ++ 0 :: q ++ b) t := ⟨ht, q ++ b, by rw [List.append_assoc, List.cons_append]⟩
  rw [h.unique hs]
  exact ⟨ht, q, rfl⟩

/-- With one byte behind, the string ends there. -/
theorem Holds.of_append_singleton (h : Holds (a ++ [x]) s) (ha : 0 ∉ a) : s = a := by
  obtain ⟨-, q, hq⟩ := h
  have hl := congrArg List.length hq
  simp only [List.length_append, List.length_cons, List.length_nil] at hl
  by_cases hlt : s.length < a.length
  · have hmem : (s ++ 0 :: q)[s.length]? = some 0 := by rw [List.getElem?_append_right (Nat.le_refl _), Nat.sub_self]; rfl
    rw [← hq, List.getElem?_append_left hlt] at hmem
    exact absurd (List.mem_of_getElem? hmem) ha
  · exact (List.append_inj hq (by omega)).1.symm

end Strings

/-- Answers are different for strings of different lengths. -/
theorem length_eq_of_answer {xid : Word} {s t : List Byte} (hs : s.length < 2 ^ 32) (ht : t.length < 2 ^ 32)
    (h : answer xid s = answer xid t) : s.length = t.length := by
  have hw := List.append_cancel_left h
  rw [List.append_assoc, List.append_assoc] at hw
  have hn := (toBytes_append_inj hw).1
  rw [← toNat_narrowed hs, ← toNat_narrowed ht, hn]

/-! ## Two storages -/

namespace ServerStorage

variable (st : ServerStorage)

/-- The same storage with other bytes in the buffer for the name. -/
def setName (name : List Byte) (h : name.length = 36) : ServerStorage := { st with name := name, length_name := h }

end ServerStorage

section Discreet

variable {O : Oats} {st : ServerStorage} {xid n : Word} {r : List Byte} {shown : Shown} {out : List Byte}

theorem length_callBytes (hr : r.length = 52) : (callBytes xid n r).length = bufSize := by
  rw [callBytes, List.length_append, List.length_append, length_words, length_toBytes, hr]
  rfl

theorem fill_whole (b : Buffer) {bs : List Byte} (h : bs.length = bufSize) :
    (b.fill bs (Nat.le_of_eq h)).bytes = bs := by
  show bs ++ b.bytes.drop bs.length = bs
  rw [h, ← b.length_bytes, List.drop_length, List.append_nil]

/-- An answer has the string that is left in the buffer for the name. -/
theorem answered_iff (hr : r.length = 52) : serverFunc O st (callBytes xid n r) = .ok (shown, out) ↔
    ∃ ok title r' s, callArgsInto st.name st.title (toBytes n ++ r) = some (ok, (nameLeft n r st.name, title), r') ∧
      Holds (nameLeft n r st.name) s ∧ shown = (some s, printString title) ∧ out = answer xid s := by
  have hb := fill_whole st.buf (show (callBytes xid n r).length = bufSize from length_callBytes hr)
  obtain ⟨o, ho, -⟩ := callArgsInto_name (n := n) hr st.title
  rw [serverFunc_service _ (by rw [hb]; rfl)]
  constructor
  · rintro ⟨call, args, hname⟩
    rw [hb] at call
    obtain ⟨rfl, rfl⟩ := serviceWords_inj call
    have hargs := args
    rw [ho st.name st.length_name] at hargs
    obtain ⟨⟨ok, title, r'⟩, -, he⟩ := Option.map_eq_some_iff.mp hargs
    cases he
    exact ⟨_, _, _, _, args, hname, rfl, rfl⟩
  · rintro ⟨ok, title, r', s, args, hname, rfl, rfl⟩
    exact ⟨by rw [hb]; rfl, args, hname⟩

/-- The same call is answered with another buffer for the name, as long as there is a string left in it. -/
theorem answered_setName (hr : r.length = 52) (h : serverFunc O st (callBytes xid n r) = .ok (shown, out))
    {name s : List Byte} (hl : name.length = 36) (hs : Holds (nameLeft n r name) s) :
    serverFunc O (st.setName name hl) (callBytes xid n r) = .ok ((some s, shown.2), answer xid s) := by
  obtain ⟨ok, title, r', -, args, -, rfl, -⟩ := (answered_iff hr).mp h
  obtain ⟨o, ho, -⟩ := callArgsInto_name (n := n) hr st.title
  rw [ho st.name st.length_name] at args
  obtain ⟨⟨ok', title', r₁⟩, ho', he⟩ := Option.map_eq_some_iff.mp args
  cases he
  refine (answered_iff hr).mpr ⟨ok, title, r', s, ?_, hs, rfl, rfl⟩
  show callArgsInto name st.title _ = _
  rw [ho name hl, ho']
  rfl

/-- Two buffers that leave different strings, and the string that is common to them. -/
theorem exists_names (hr : r.length = 52) (h : serverFunc O st (callBytes xid n r) = .ok (shown, out))
    (hn : ¬ (n.toNat ≤ 52 ∧ (0 ∈ r.take n.toNat ∨ n.toNat = 35))) : ∃ name name' a : List Byte,
      name.length = 36 ∧ name'.length = 36 ∧ a.length < 36 ∧ Holds (nameLeft n r name) a ∧
      Holds (nameLeft n r name') (a ++ [1]) := by
  have hone (a : List Byte) (ha : 0 ∉ a) : (0 : Byte) ∉ a ++ [1] := by
    rw [List.mem_append, List.mem_singleton, not_or]
    exact ⟨ha, by decide⟩
  unfold nameLeft
  by_cases h52 : 52 < n.toNat
  · simp only [if_pos h52]
    refine ⟨List.replicate 36 0, 1 :: List.replicate 35 0, [], rfl, rfl, by decide, holds_append_nul (by simp) _, ?_⟩
    exact ⟨hone [] (by simp), List.replicate 34 0, rfl⟩
  · rw [not_and, not_or] at hn
    obtain ⟨h0, h35⟩ := hn (Nat.le_of_not_lt h52)
    obtain ⟨ok, title, r', s, args, hname, -⟩ := (answered_iff hr).mp h
    have ht : (r.take n.toNat).length = n.toNat := List.length_take_of_le (by omega)
    have hlt : n.toNat < 35 := by
      obtain ⟨o, ho, hover⟩ := callArgsInto_name (n := n) hr st.title
      by_contra hge
      by_cases h36 : 36 < n.toNat
      · rw [ho st.name st.length_name, hover h36 (by omega)] at args
        cases args
      · -- The bytes of the name take up the whole buffer, and there is no NUL among them.
        have hfull : st.name.drop n.toNat = [] := List.drop_eq_nil_of_le (by rw [st.length_name]; omega)
        obtain ⟨-, q, hq⟩ := hname
        rw [nameLeft, if_neg h52, hfull, List.append_nil] at hq
        apply h0
        rw [hq]
        simp
    simp only [if_neg h52]
    refine ⟨List.replicate 36 0, List.replicate n.toNat 0 ++ 1 :: List.replicate (35 - n.toNat) 0, r.take n.toNat, rfl, ?_,
      by omega, ?_, ?_⟩
    · simp only [List.length_append, List.length_replicate, List.length_cons]
      omega
    · rw [List.drop_replicate, show 36 - n.toNat = 35 - n.toNat + 1 by omega, List.replicate_succ]
      exact holds_append_nul h0 _
    · rw [List.drop_left' (List.length_replicate ..), show 35 - n.toNat = 34 - n.toNat + 1 by omega,
        List.replicate_succ]
      exact ⟨hone _ h0, List.replicate (34 - n.toNat) 0, by rw [List.append_assoc]; rfl⟩

/-- **A call that is answered is answered on its own if and only if it brings a NUL in its name or leaves one byte of the
buffer.** -/
theorem discreet_iff (O : Oats) (st : ServerStorage) (xid n : Word) {r : List Byte} (hr : r.length = 52)
    (h : ∃ shown out, serverFunc O st (callBytes xid n r) = .ok (shown, out)) :
    Discreet O (callBytes xid n r) ↔ n.toNat ≤ 52 ∧ (0 ∈ r.take n.toNat ∨ n.toNat = 35) := by
  obtain ⟨shown, out, h⟩ := h
  constructor
  · intro hd
    by_contra hn
    obtain ⟨name, name', a, hl, hl', ha, hs, hs'⟩ := exists_names hr h hn
    have he := hd _ _ _ _ _ _ (answered_setName hr h hl hs) (answered_setName hr h hl' hs')
    have hlen := length_eq_of_answer (by omega) (by rw [List.length_append, List.length_singleton]; omega) he
    rw [List.length_append, List.length_singleton] at hlen
    omega
  · rintro ⟨h52, hn⟩ st₁ st₂ shown₁ shown₂ out₁ out₂ h₁ h₂
    obtain ⟨-, -, -, s₁, -, hs₁, -, rfl⟩ := (answered_iff hr).mp h₁
    obtain ⟨-, -, -, s₂, -, hs₂, -, rfl⟩ := (answered_iff hr).mp h₂
    rw [nameLeft, if_neg (Nat.not_lt.mpr h52)] at hs₁ hs₂
    congr 1
    by_cases h0 : 0 ∈ r.take n.toNat
    · exact (hs₁.of_append h0).unique (hs₂.of_append h0)
    · have h35 := hn.resolve_left h0
      have hone (st : ServerStorage) : ∃ x, st.name.drop n.toNat = [x] := by
        rw [← List.length_eq_one_iff, List.length_drop, st.length_name, h35]
      obtain ⟨x₁, hx₁⟩ := hone st₁
      obtain ⟨x₂, hx₂⟩ := hone st₂
      rw [hx₁] at hs₁
      rw [hx₂] at hs₂
      rw [hs₁.of_append_singleton h0, hs₂.of_append_singleton h0]

end Discreet

/-- A call that announces more than it brings is answered. -/
theorem long_answered : serverFunc oatsAt zeroServer (callBytes 7 60 (List.replicate 52 65)) =
    .ok ((some [], some []), answer 7 []) :=
  (answered_iff rfl).mpr ⟨false, List.replicate 16 0, List.replicate 52 65, [], rfl,
    ⟨List.not_mem_nil, List.replicate 35 0, rfl⟩, rfl, rfl⟩

theorem discreet_iff_long : Discreet oatsAt (callBytes 7 60 (List.replicate 52 65)) ↔
    (60 : Word).toNat ≤ 52 ∧ (0 ∈ (List.replicate 52 (65 : Byte)).take (60 : Word).toNat ∨ (60 : Word).toNat = 35) :=
  discreet_iff oatsAt zeroServer 7 60 rfl ⟨_, _, long_answered⟩

end Cornflakes.Examples

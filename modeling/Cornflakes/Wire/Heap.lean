import Mathlib.Data.List.Basic

/-!
# Memory by addresses

A `Heap β` gives every address its cell. `load` reads consecutive cells and `store` overwrites them; a load that meets
no stored address is not changed by the store (`load_store_apart`), and one of exactly the stored addresses gives
what was stored (`load_store_same`). After several stores (`storeAll`) an address that was stored to has nothing of what
was there before (`storeAll_within`).
-/

set_option autoImplicit false

namespace Wire

variable {β : Type}

/-- The cells by their addresses. -/
abbrev Heap (β : Type) := Int → β

namespace Heap

/-- The `n` cells from `a` on. -/
def load (m : Heap β) (a : Int) : Nat → List β
  | 0 => []
  | n + 1 => m a :: load m (a + 1) n

/-- The cells with `bs` stored from `a` on. -/
def store (m : Heap β) (a : Int) (bs : List β) : Heap β := fun x =>
  if a ≤ x then (bs[(x - a).toNat]?).getD (m x) else m x

/-- The cells after some stores. -/
def storeAll (m : Heap β) (ws : List (Int × List β)) : Heap β := ws.foldl (fun m w => m.store w.1 w.2) m

/-- The address `x` is one of the `n` from `a` on. -/
def Within (x a : Int) (n : Nat) : Prop := a ≤ x ∧ x < a + n

instance (x a : Int) (n : Nat) : Decidable (Within x a n) := inferInstanceAs (Decidable (_ ∧ _))

@[simp] theorem length_load (m : Heap β) (a : Int) (n : Nat) : (m.load a n).length = n := by
  induction n generalizing a with
  | zero => rfl
  | succ n ih => rw [load, List.length_cons, ih]

theorem load_add (m : Heap β) (a : Int) (n k : Nat) : m.load a (n + k) = m.load a n ++ m.load (a + n) k := by
  induction n generalizing a with
  | zero => rw [Nat.zero_add, load, List.nil_append, Int.natCast_zero, Int.add_zero]
  | succ n ih =>
    rw [Nat.succ_add, load, load, ih, List.cons_append, show a + 1 + (n : Int) = a + (n + 1 : Nat) by omega]

theorem take_load (m : Heap β) (a : Int) {n k : Nat} (h : k ≤ n) : (m.load a n).take k = m.load a k := by
  obtain ⟨i, rfl⟩ := Nat.exists_eq_add_of_le h
  rw [load_add, List.take_left' (length_load m a k)]

theorem drop_load (m : Heap β) (a : Int) {n k : Nat} (h : k ≤ n) : (m.load a n).drop k = m.load (a + k) (n - k) := by
  obtain ⟨i, rfl⟩ := Nat.exists_eq_add_of_le h
  rw [load_add, List.drop_left' (length_load m a k), Nat.add_sub_cancel_left]

theorem load_getElem? (m : Heap β) (a : Int) {n i : Nat} (h : i < n) : (m.load a n)[i]? = some (m (a + i)) := by
  induction n generalizing a i with
  | zero => omega
  | succ n ih =>
    cases i with
    | zero => rw [load, List.getElem?_cons_zero, Int.natCast_zero, Int.add_zero]
    | succ i => rw [load, List.getElem?_cons_succ, ih (a + 1) (by omega), show a + 1 + (i : Int) = a + (i + 1 : Nat) by omega]

/-- Equal cells are loaded equally. -/
theorem load_congr {m m' : Heap β} {a : Int} {n : Nat} (h : ∀ x, Within x a n → m x = m' x) :
    m.load a n = m'.load a n := by
  induction n generalizing a with
  | zero => rfl
  | succ n ih =>
    rw [load, load, h a ⟨Int.le_refl a, by omega⟩, ih fun x hx => h x ⟨by have := hx.1; omega, by have := hx.2; omega⟩]

/-- Cells that are loaded equally are equal. -/
theorem eq_of_load_eq {m m' : Heap β} {a x : Int} {n : Nat} (h : m.load a n = m'.load a n) (hx : Within x a n) :
    m x = m' x := by
  obtain ⟨h₁, h₂⟩ := hx
  have hi : (x - a).toNat < n := by omega
  have he := congrArg (fun bs => bs[(x - a).toNat]?) h
  simp only [load_getElem? _ a hi, show a + ((x - a).toNat : Int) = x by omega, Option.some.injEq] at he
  exact he

theorem store_of_not_within (m : Heap β) {a x : Int} {bs : List β} (h : ¬ Within x a bs.length) :
    m.store a bs x = m x := by
  unfold store
  split
  next ha =>
    have hl : bs.length ≤ (x - a).toNat := by
      unfold Within at h
      omega
    rw [List.getElem?_eq_none hl, Option.getD_none]
  next => rfl

theorem store_add (m : Heap β) (a : Int) {bs : List β} {i : Nat} (h : i < bs.length) : m.store a bs (a + i) = bs[i] := by
  unfold store
  rw [if_pos (by omega), show (a + (i : Int) - a).toNat = i by omega, List.getElem?_eq_getElem h, Option.getD_some]

theorem store_nil (m : Heap β) (a : Int) : m.store a [] = m := by
  funext x
  apply store_of_not_within
  intro hw
  exact absurd hw.1 (by have := hw.2; rw [List.length_nil] at this; omega)

/-- A store in two parts, one after the other. -/
theorem store_append (m : Heap β) (a : Int) (bs cs : List β) :
    m.store a (bs ++ cs) = (m.store a bs).store (a + bs.length) cs := by
  funext x
  by_cases hb : a + (bs.length : Int) ≤ x
  · have hn : m.store a bs x = m x := store_of_not_within m fun hw => absurd hw.2 (Int.not_lt.mpr hb)
    have hi : (x - (a + bs.length)).toNat = (x - a).toNat - bs.length := by omega
    rw [store, if_pos (by omega), List.getElem?_append_right (by omega), store, if_pos hb, hn, hi]
  · have hn : (m.store a bs).store (a + bs.length) cs x = m.store a bs x :=
      store_of_not_within _ fun hw => absurd hw.1 hb
    rw [hn, store, store]
    split
    · rw [List.getElem?_append_left (by omega)]
    · rfl

/-- What a store leaves at an address depends on what was there only. -/
theorem store_congr {m m' : Heap β} {x : Int} (h : m x = m' x) (a : Int) (bs : List β) :
    m.store a bs x = m'.store a bs x := by
  rw [store, store, h]

/-- It does not depend on that either when the address is stored to. -/
theorem store_within (m m' : Heap β) {a x : Int} {bs : List β} (h : Within x a bs.length) :
    m.store a bs x = m'.store a bs x := by
  obtain ⟨h₁, h₂⟩ := h
  have hx : x = a + ((x - a).toNat : Int) := by omega
  have hi : (x - a).toNat < bs.length := by omega
  rw [hx, store_add m a hi, store_add m' a hi]

theorem load_store_apart (m : Heap β) {a b : Int} {bs : List β} {n : Nat} (h : b + n ≤ a ∨ a + bs.length ≤ b) :
    (m.store a bs).load b n = m.load b n := by
  apply load_congr
  intro x hx
  apply store_of_not_within
  intro hw
  have h₁ := hx.1
  have h₂ := hx.2
  have h₃ := hw.1
  have h₄ := hw.2
  omega

theorem load_store_same (m : Heap β) (a : Int) (bs : List β) : (m.store a bs).load a bs.length = bs := by
  apply List.ext_getElem?
  intro i
  by_cases hi : i < bs.length
  · rw [load_getElem? _ a hi, store_add m a hi, List.getElem?_eq_getElem hi]
  · rw [List.getElem?_eq_none (by rw [length_load]; omega), List.getElem?_eq_none (by omega)]

/-- Storing fewer cells than are loaded replaces their front. -/
theorem load_store_front (m : Heap β) (a : Int) {bs : List β} {n : Nat} (h : bs.length ≤ n) :
    (m.store a bs).load a n = bs ++ (m.load a n).drop bs.length := by
  obtain ⟨k, rfl⟩ := Nat.exists_eq_add_of_le h
  rw [load_add, load_store_same, load_store_apart m (Or.inr (Int.le_refl _)), load_add m a bs.length k,
    List.drop_left' (length_load m a bs.length)]

/-! ## Several stores -/

theorem storeAll_append (m : Heap β) (ws ws' : List (Int × List β)) :
    m.storeAll (ws ++ ws') = (m.storeAll ws).storeAll ws' := List.foldl_append

section StoreAll

variable {m m' : Heap β} {x : Int} {ws : List (Int × List β)}

theorem storeAll_congr (h : m x = m' x) : m.storeAll ws x = m'.storeAll ws x := by
  induction ws generalizing m m' with
  | nil => exact h
  | cons w ws ih => exact ih (store_congr h w.1 w.2)

theorem storeAll_of_not_within (h : ∀ w ∈ ws, ¬ Within x w.1 w.2.length) : m.storeAll ws x = m x := by
  induction ws generalizing m with
  | nil => rfl
  | cons w ws ih =>
    have hw := store_of_not_within m (h w List.mem_cons_self)
    exact (ih fun w' hw' => h w' (List.mem_cons_of_mem w hw')).trans hw

/-- An address that is stored to has nothing of what was there. -/
theorem storeAll_within (h : ∃ w ∈ ws, Within x w.1 w.2.length) : m.storeAll ws x = m'.storeAll ws x := by
  induction ws generalizing m m' with
  | nil =>
    obtain ⟨w, hw, -⟩ := h
    cases hw
  | cons w ws ih =>
    obtain ⟨w', hw', hx⟩ := h
    rcases List.mem_cons.mp hw' with rfl | hmem
    · show (m.store w'.1 w'.2).storeAll ws x = (m'.store w'.1 w'.2).storeAll ws x
      exact storeAll_congr (store_within m m' hx)
    · exact ih ⟨w', hmem, hx⟩

end StoreAll

end Heap

end Wire

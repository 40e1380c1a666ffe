import Mathlib.Data.List.Forall2
import Cornflakes.Wire.Codec

/-!
# Codecs side by side

`Alike P r r'` says of two computations that they end with the same error or with results that `P` relates. For codecs
the results are outcomes, and `Outcomes T S` relates these when they have the same boolean, objects related by `T` and
streams related by `S`. There is a rule for each way to put codecs together (`Alike.bind`, `Alike.onField`,
`Alike.andThen`, `Alike.runAll`), so a codec that touches its stream through some operations only does the same on all
streams on which these do.
-/

set_option autoImplicit false

namespace Wire

variable {ε γ γ' δ δ' : Type}

/-- The same error, or related results. -/
inductive Alike (P : γ → γ' → Prop) : Except ε γ → Except ε γ' → Prop
  | error (e : ε) : Alike P (.error e) (.error e)
  | ok {a : γ} {a' : γ'} (h : P a a') : Alike P (.ok a) (.ok a')

namespace Alike

variable {P : γ → γ' → Prop} {Q : δ → δ' → Prop} {r : Except ε γ} {r' : Except ε γ'}

theorem weaken {P' : γ → γ' → Prop} (hr : Alike P r r') (h : ∀ a a', P a a' → P' a a') : Alike P' r r' := by
  cases hr with
  | error e => exact error e
  | ok ha => exact ok (h _ _ ha)

theorem bind {k : γ → Except ε δ} {k' : γ' → Except ε δ'} (hr : Alike P r r')
    (hk : ∀ a a', P a a' → Alike Q (k a) (k' a')) : Alike Q (r >>= k) (r' >>= k') := by
  cases hr with
  | error e => exact error e
  | ok ha => exact hk _ _ ha

theorem mapError {ε' : Type} {r : Except ε' γ} {r' : Except ε' γ'} (hr : Alike P r r') (f : ε' → ε) :
    Alike P (r.mapError f) (r'.mapError f) := by
  cases hr with
  | error e => exact error (f e)
  | ok ha => exact ok ha

theorem error_iff (hr : Alike P r r') (e : ε) : r = .error e ↔ r' = .error e := by
  cases hr with
  | error e' => simp only [Except.error.injEq]
  | ok ha => simp only [reduceCtorEq]

theorem exists_ok (hr : Alike P r r') {a : γ} (h : r = .ok a) : ∃ a', r' = .ok a' ∧ P a a' := by
  subst h
  cases hr with
  | ok ha => exact ⟨_, rfl, ha⟩

end Alike

/-! ## Outcomes -/

variable {α α' μ μ' S S' : Type}

/-- The same boolean, related objects and related streams. -/
def Outcomes (T : α → α' → Prop) (R : S → S' → Prop) (o : Bool × α × S) (o' : Bool × α' × S') : Prop :=
  o.1 = o'.1 ∧ T o.2.1 o'.2.1 ∧ R o.2.2 o'.2.2

namespace Alike

variable {T : α → α' → Prop} {U : μ → μ' → Prop} {R : S → S' → Prop}

theorem outcome {b : Bool} {a : α} {a' : α'} {s : S} {s' : S'} (ha : T a a') (hs : R s s') :
    Alike (ε := ε) (Outcomes T R) (.ok (b, a, s)) (.ok (b, a', s')) := ok ⟨rfl, ha, hs⟩

theorem onField {r : Except ε (Bool × α × S)} {r' : Except ε (Bool × α' × S')} (hr : Alike (Outcomes T R) r r')
    {set : α → μ} {set' : α' → μ'} (hset : ∀ a a', T a a' → U (set a) (set' a')) :
    Alike (Outcomes U R) (onField r set) (onField r' set') :=
  hr.bind fun _ _ h => ok ⟨h.1, hset _ _ h.2.1, h.2.2⟩

theorem andThen {r : Except ε (Bool × μ × S)} {r' : Except ε (Bool × μ' × S')} (hr : Alike (Outcomes U R) r r')
    {k : S → μ → Except ε (Bool × μ × S)} {k' : S' → μ' → Except ε (Bool × μ' × S')}
    (hk : ∀ s s' m m', R s s' → U m m' → Alike (Outcomes U R) (k s m) (k' s' m')) :
    Alike (Outcomes U R) (andThen r k) (andThen r' k') := by
  cases hr with
  | error e => exact error e
  | @ok o o' h =>
    obtain ⟨b, m, s⟩ := o
    obtain ⟨b', m', s'⟩ := o'
    obtain ⟨hb, hm, hs⟩ := h
    simp only at hb hm hs
    subst hb
    cases b with
    | true => exact hk s s' m m' hs hm
    | false => exact outcome hm hs

/-- Lists of objects that are related one by one. -/
theorem runAll {f : S → α → Except ε (Bool × α × S)} {f' : S' → α' → Except ε (Bool × α' × S')}
    (hf : ∀ s s' a a', R s s' → T a a' → Alike (Outcomes T R) (f s a) (f' s' a')) {as : List α} {as' : List α'}
    (has : List.Forall₂ T as as') {s : S} {s' : S'} (hs : R s s') :
    Alike (Outcomes (List.Forall₂ T) R) (runAll f s as) (runAll f' s' as') := by
  induction has generalizing s s' with
  | nil => exact outcome .nil hs
  | @cons a a' as as' ha has ih =>
    refine (hf s s' a a' hs ha).bind ?_
    rintro ⟨b, v, t⟩ ⟨b', v', t'⟩ ⟨hb, hv, ht⟩
    simp only at hb hv ht
    subst hb
    cases b with
    | true => exact (ih ht).onField fun _ _ hrest => .cons hv hrest
    | false => exact outcome (.cons hv has) ht

end Alike

end Wire

import Mathlib.Data.List.Basic

/-!
# Runs of a step function

A machine is a partial step function `step : S → ι → Option S` on states and inputs. `Throughout step P s is` says that
`P` holds of every step that is taken when the inputs `is` come one after another from the state `s`; a step without a
next state is the last one. Under an invariant that the steps keep, what agrees on each step agrees along each run
(`Throughout.congr`), and where `P` does not hold throughout there is a first step of which it does not hold
(`exists_of_not_throughout`). `run step s is` is the state after a whole run; it has the invariants that the steps keep
(`Keeps.run`), and there is one if every state with the invariant has a next state (`exists_run`). `outputs step s is`
is what a machine that also answers its inputs gives on the way, with the state at the end.

A call on a state can also give a boolean and the state afterwards. `andNext` makes a second call after TRUE, and
`calls f n` makes the call `f` up to `n` times, until it returns FALSE; so many calls are some calls and then the others
(`calls_add`). `Agree R r r'` says that two calls returned the same and that `R` relates the states afterwards. It goes
along with `andNext` and `calls` when the calls keep `R` (`Agree.andNext`, `Agree.calls`).
-/

set_option autoImplicit false

namespace Wire

variable {S ι : Type} (step : S → ι → Option S)

/-- `P` holds of every step of the run. -/
def Throughout (P : S → ι → Prop) : S → List ι → Prop
  | _, [] => True
  | s, i :: is => P s i ∧ ∀ s', step s i = some s' → Throughout P s' is

/-- Every step keeps the invariant. -/
def Keeps (Inv : S → Prop) : Prop := ∀ s i s', Inv s → step s i = some s' → Inv s'

/-- The state after the inputs, if every one of them has a next state. -/
def run : S → List ι → Option S
  | s, [] => some s
  | s, i :: is => (step s i).bind fun s' => run s' is

variable {step}

theorem run_cons {s s' : S} {i : ι} (h : step s i = some s') (is : List ι) : run step s (i :: is) = run step s' is := by
  rw [run, h]
  rfl

theorem run_append (s : S) (is js : List ι) :
    run step s (is ++ js) = (run step s is).bind fun s' => run step s' js := by
  induction is generalizing s with
  | nil => rfl
  | cons i is ih =>
    rw [List.cons_append, run, run]
    cases step s i with
    | none => rfl
    | some s₁ => exact ih s₁

theorem Keeps.run {Inv : S → Prop} (hk : Keeps step Inv) {s s' : S} (hs : Inv s) {is : List ι}
    (h : run step s is = some s') : Inv s' := by
  induction is generalizing s with
  | nil =>
    cases h
    exact hs
  | cons i is ih =>
    cases hstep : step s i with
    | none =>
      rw [Wire.run, hstep] at h
      cases h
    | some s₁ =>
      rw [run_cons hstep] at h
      exact ih (hk s i s₁ hs hstep) h

theorem exists_run {Inv : S → Prop} {is : List ι} (h : ∀ i ∈ is, ∀ s, Inv s → ∃ s', step s i = some s' ∧ Inv s')
    {s : S} (hs : Inv s) : ∃ s', run step s is = some s' ∧ Inv s' := by
  induction is generalizing s with
  | nil => exact ⟨s, rfl, hs⟩
  | cons i is ih =>
    obtain ⟨s₁, h₁, hs₁⟩ := h i List.mem_cons_self s hs
    obtain ⟨s', hr, hs'⟩ := ih (fun j hj => h j (List.mem_cons_of_mem i hj)) hs₁
    exact ⟨s', by rw [run_cons h₁, hr], hs'⟩

theorem Throughout.congr {Inv : S → Prop} {P Q : S → ι → Prop} (hk : Keeps step Inv)
    (h : ∀ s i, Inv s → (P s i ↔ Q s i)) {s : S} (hs : Inv s) (is : List ι) :
    Throughout step P s is ↔ Throughout step Q s is := by
  induction is generalizing s with
  | nil => exact Iff.rfl
  | cons i is ih =>
    simp only [Throughout]
    refine and_congr (h s i hs) (forall_congr' fun s' => forall_congr' fun hstep => ?_)
    exact ih (hk s i s' hs hstep)

/-- Where something does not hold throughout, there is a first step of which it does not hold. -/
theorem exists_of_not_throughout {P : S → ι → Prop} {s : S} {is : List ι} (h : ¬ Throughout step P s is) :
    ∃ is₁ i is₂ s', is = is₁ ++ i :: is₂ ∧ Throughout step P s is₁ ∧ run step s is₁ = some s' ∧ ¬ P s' i := by
  induction is generalizing s with
  | nil => exact absurd trivial h
  | cons i is ih =>
    by_cases hp : P s i
    · have hn : ∃ s₁, step s i = some s₁ ∧ ¬ Throughout step P s₁ is := by
        by_contra! hall
        exact h ⟨hp, hall⟩
      obtain ⟨s₁, hs₁, h₁⟩ := hn
      obtain ⟨is₁, j, is₂, s', rfl, ht, hr, hj⟩ := ih h₁
      refine ⟨i :: is₁, j, is₂, s', rfl, ⟨hp, fun s₂ hs₂ => ?_⟩, by rw [run_cons hs₁, hr], hj⟩
      rw [hs₁] at hs₂
      cases hs₂
      exact ht
    · exact ⟨[], i, is, s, rfl, trivial, rfl, hp⟩

section Outputs

variable {O S' : Type}

/-- The outputs for the inputs, and the last state. -/
def outputs (step : S → ι → Option (O × S)) : S → List ι → Option (List O × S)
  | s, [] => some ([], s)
  | s, i :: is => (step s i).bind fun r => (outputs step r.2 is).map fun r' => (r.1 :: r'.1, r'.2)

variable {step : S → ι → Option (O × S)} {s s' s'' : S} {o : O} {os os' : List O} {i : ι} {is : List ι}

theorem outputs_cons (h : step s i = some (o, s')) (h' : outputs step s' is = some (os, s'')) :
    outputs step s (i :: is) = some (o :: os, s'') := by
  simp [outputs, h, h']

theorem outputs_one (h : step s i = some (o, s')) : outputs step s [i] = some ([o], s') := outputs_cons h rfl

theorem outputs_append {js : List ι} (h : outputs step s is = some (os, s'))
    (h' : outputs step s' js = some (os', s'')) : outputs step s (is ++ js) = some (os ++ os', s'') := by
  induction is generalizing s os with
  | nil =>
    cases h
    exact h'
  | cons i is ih =>
    simp only [outputs, Option.bind_eq_some_iff, Option.map_eq_some_iff] at h
    obtain ⟨r, hr, r', hr', he⟩ := h
    cases he
    exact outputs_cons hr (ih hr')

/-- Machines that agree through `f` give the same outputs. -/
theorem outputs_map {Inv : S → Prop} {step' : S' → ι → Option (O × S')} {f : S → S'}
    (h : ∀ s i, Inv s → step' (f s) i = (step s i).map (fun r => (r.1, f r.2)) ∧ ∀ r, step s i = some r → Inv r.2)
    (hs : Inv s) (is : List ι) : outputs step' (f s) is = (outputs step s is).map fun r => (r.1, f r.2) := by
  induction is generalizing s with
  | nil => rfl
  | cons i is ih =>
    obtain ⟨he, hk⟩ := h s i hs
    rw [outputs, outputs, he]
    cases hr : step s i with
    | none => rfl
    | some r =>
      simp only [Option.map_some, Option.bind_some, ih (hk r hr), Option.map_map]
      rfl

end Outputs

/-! ## Calls that return a boolean -/

section Calls

variable {S' : Type}

/-- `r && k`: the second call is made after TRUE. -/
def andNext (r : Bool × S) (k : S → Bool × S) : Bool × S := if r.1 then k r.2 else r

/-- At most `n` calls of `f`, one after another, up to the first that returns FALSE. -/
def calls (f : S → Bool × S) : Nat → S → Bool × S
  | 0, s => (true, s)
  | n + 1, s => andNext (f s) (calls f n)

@[simp] theorem andNext_true (s : S) (k : S → Bool × S) : andNext (true, s) k = k s := rfl

@[simp] theorem andNext_false (s : S) (k : S → Bool × S) : andNext (false, s) k = (false, s) := rfl

theorem calls_add (f : S → Bool × S) (m n : Nat) (s : S) : calls f (m + n) s = andNext (calls f m s) (calls f n) := by
  induction m generalizing s with
  | zero => rw [Nat.zero_add, calls, andNext_true]
  | succ m ih =>
    rw [Nat.succ_add, calls, calls]
    rcases f s with ⟨_ | _, s'⟩
    · rfl
    · exact ih s'

/-- The same result, and related states. -/
structure Agree {γ : Type} (R : S → S' → Prop) (r : γ × S) (r' : γ × S') : Prop where
  result : r.1 = r'.1
  state : R r.2 r'.2

namespace Agree

variable {R : S → S' → Prop}

theorem andNext {r : Bool × S} {r' : Bool × S'} {k : S → Bool × S} {k' : S' → Bool × S'} (h : Agree R r r')
    (hk : ∀ s s', r = (true, s) → R s s' → Agree R (k s) (k' s')) : Agree R (andNext r k) (andNext r' k') := by
  obtain ⟨ok, s⟩ := r
  obtain ⟨ok', s'⟩ := r'
  obtain ⟨rfl, hs⟩ := h
  cases ok with
  | false => exact ⟨rfl, hs⟩
  | true => exact hk s s' rfl hs

theorem calls {f : S → Bool × S} {f' : S' → Bool × S'} (hf : ∀ s s', R s s' → Agree R (f s) (f' s')) (n : Nat) {s : S}
    {s' : S'} (hs : R s s') : Agree R (calls f n s) (calls f' n s') := by
  induction n generalizing s s' with
  | zero => exact ⟨rfl, hs⟩
  | succ n ih => exact (hf s s' hs).andNext fun _ _ _ h => ih h

theorem symm {γ : Type} {R : S → S → Prop} (hR : ∀ a b, R a b → R b a) {r r' : γ × S} (h : Agree R r r') :
    Agree R r' r :=
  ⟨h.result.symm, hR _ _ h.state⟩

theorem trans {γ : Type} {R : S → S → Prop} (hR : ∀ a b c, R a b → R b c → R a c) {r r' r'' : γ × S} (h : Agree R r r')
    (h' : Agree R r' r'') : Agree R r r'' :=
  ⟨h.result.trans h'.result, hR _ _ _ h.state h'.state⟩

end Agree

end Calls

end Wire

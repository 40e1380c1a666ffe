import Cornflakes.Wire.Run

/-!
# Two parties at one machine

The inputs of two parties come in any order: those of the first are on the left of a sum, those of the second on the
right. `lefts` and `rights` are what each of them puts in. If the first party works on a view of the state that the
steps of the second leave alone, it gets the outputs it would get without the second (`outputs_lefts`). If a relation
to the states of the second party's own run is kept by every step, its run ends in related states (`run_rights`). What
the steps of the second party do may depend on a condition that holds along its inputs, where the steps of the first do
not count.
-/

set_option autoImplicit false

namespace Wire

section Parties

variable {I J : Type}

/-- The inputs of the first party. -/
def lefts (os : List (I ⊕ J)) : List I := os.filterMap Sum.getLeft?

/-- The inputs of the second party. -/
def rights (os : List (I ⊕ J)) : List J := os.filterMap Sum.getRight?

@[simp] theorem lefts_inl (i : I) (os : List (I ⊕ J)) : lefts (.inl i :: os) = i :: lefts os := rfl

@[simp] theorem lefts_inr (j : J) (os : List (I ⊕ J)) : lefts (.inr j :: os) = lefts os := rfl

@[simp] theorem rights_inl (i : I) (os : List (I ⊕ J)) : rights (.inl i :: os) = rights os := rfl

@[simp] theorem rights_inr (j : J) (os : List (I ⊕ J)) : rights (.inr j :: os) = j :: rights os := rfl

@[simp] theorem lefts_append (os os' : List (I ⊕ J)) : lefts (os ++ os') = lefts os ++ lefts os' :=
  List.filterMap_append

@[simp] theorem rights_append (os os' : List (I ⊕ J)) : rights (os ++ os') = rights os ++ rights os' :=
  List.filterMap_append

@[simp] theorem lefts_map_inr (js : List J) : lefts (js.map (Sum.inr : J → I ⊕ J)) = [] := by
  induction js with
  | nil => rfl
  | cons j js ih => rw [List.map_cons, lefts_inr, ih]

@[simp] theorem rights_map_inr (js : List J) : rights (js.map (Sum.inr : J → I ⊕ J)) = js := by
  induction js with
  | nil => rfl
  | cons j js ih => rw [List.map_cons, rights_inr, ih]

end Parties

variable {S A B U I J O : Type} {step : S → I ⊕ J → Option (List O × S)} {next : B → J → Option B} {P : B → J → Prop}
  {g : S → B}

/-- The first party gets what it would get alone. -/
theorem outputs_lefts {own : A → I → Option (O × A)} {Inv : S → Prop} {f : S → A}
    (hown : ∀ s i, Inv s → (step s (.inl i)).map (fun r => (r.1, f r.2)) = (own (f s) i).map fun r => ([r.1], r.2))
    (hleft : ∀ s i r, Inv s → step s (.inl i) = some r → Inv r.2 ∧ g r.2 = g s)
    (hright : ∀ s j, Inv s → P (g s) j →
      ∃ s', step s (.inr j) = some ([], s') ∧ Inv s' ∧ f s' = f s ∧ next (g s) j = some (g s'))
    {s : S} (hs : Inv s) (os : List (I ⊕ J)) (hp : Throughout next P (g s) (rights os)) :
    (outputs step s os).map (fun r => r.1.flatten) = (outputs own (f s) (lefts os)).map Prod.fst := by
  induction os generalizing s with
  | nil => rfl
  | cons o os ih =>
    cases o with
    | inl i =>
      have ho := hown s i hs
      rw [lefts_inl, outputs, outputs]
      cases hr : step s (.inl i) with
      | none =>
        rw [hr, Option.map_none, eq_comm, Option.map_eq_none_iff] at ho
        rw [ho]
        rfl
      | some r =>
        obtain ⟨hi, hg⟩ := hleft s i r hs hr
        have ih' := ih hi (by rw [hg]; exact hp)
        rw [hr, Option.map_some, eq_comm, Option.map_eq_some_iff] at ho
        obtain ⟨⟨o, a⟩, ha, he⟩ := ho
        obtain ⟨he₁, rfl⟩ := Prod.mk.inj he
        have hc := congrArg (Option.map (List.cons o)) ih'
        rw [Option.map_map, Option.map_map] at hc
        simp only [ha, ← he₁, Option.bind_some, Option.map_map]
        exact hc
    | inr j =>
      obtain ⟨s', hr, hi, hf, hn⟩ := hright s j hs hp.1
      have ih' := ih hi (hp.2 _ hn)
      rw [hf] at ih'
      rw [lefts_inr, outputs, hr, ← ih']
      simp only [Option.bind_some, Option.map_map]
      rfl

/-- The second party's own run keeps up with the whole one. -/
theorem run_rights {alone : U → J → Option U} {R : S → U → Prop}
    (hleft : ∀ s u i r, R s u → step s (.inl i) = some r → R r.2 u ∧ g r.2 = g s)
    (hright : ∀ s u j, R s u → P (g s) j →
      ∃ s' u', step s (.inr j) = some ([], s') ∧ alone u j = some u' ∧ R s' u' ∧ next (g s) j = some (g s'))
    {s s' : S} {u : U} (hs : R s u) {os : List (I ⊕ J)} (hp : Throughout next P (g s) (rights os))
    {outs : List (List O)} (hr : outputs step s os = some (outs, s')) :
    ∃ u', run alone u (rights os) = some u' ∧ R s' u' := by
  induction os generalizing s u outs with
  | nil =>
    cases hr
    exact ⟨u, rfl, hs⟩
  | cons o os ih =>
    obtain ⟨r₁, h₁, h₂⟩ := Option.bind_eq_some_iff.mp hr
    obtain ⟨r₂, h₃, he⟩ := Option.map_eq_some_iff.mp h₂
    obtain ⟨-, rfl⟩ := Prod.mk.inj he
    cases o with
    | inl i =>
      obtain ⟨hs₁, hg⟩ := hleft s u i r₁ hs h₁
      exact ih hs₁ (by rw [hg]; exact hp) h₃
    | inr j =>
      obtain ⟨s₁, u₁, hj, hu, hs₁, hn⟩ := hright s u j hs hp.1
      rw [hj] at h₁
      cases h₁
      obtain ⟨u', hrun, hR⟩ := ih hs₁ (hp.2 _ hn) h₃
      refine ⟨u', ?_, hR⟩
      rw [rights_inr, run_cons hu, hrun]

end Wire

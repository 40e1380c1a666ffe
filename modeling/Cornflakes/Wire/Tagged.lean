import Cornflakes.Wire.Codec

/-!
# Tagged objects

`tagged f arm` is the codec of an object behind a tag: `f` is the codec of the tag, and `arm` chooses by it the codec
that goes on. `ReadsBack` says of a codec which serves both ways that what it encodes with TRUE it decodes as the same;
a tagged object round-trips when its tag does and all the arms do (`ReadsBack.tagged`).
-/

set_option autoImplicit false

namespace Wire

variable {ε S α τ β : Type} {N : Nat}

/-- A codec that serves both ways: what it encodes of `u` with TRUE it decodes, whatever follows, into every object that
is ready for it, as the same. -/
def ReadsBack (atE atD : Cursor β N → S) (ready same : α → α → Prop) (f : S → α → Except ε (Bool × α × S)) : Prop :=
  ∀ c u u' s, f (atE c) u = .ok (true, u', s) → ∃ bs, bs.length ≤ c.room ∧ s = atE (c.write bs) ∧
    ∀ into, ready u into → ∃ v, same u v ∧ Takes atD (fun s => f s into) v bs

/-- The tag, then the object with the codec that the tag chooses; without one FALSE. -/
def tagged (f : S → τ → Except ε (Bool × τ × S)) (arm : τ → Option (S → α → Except ε (Bool × α × S))) (s : S)
    (u : τ × α) : Except ε (Bool × (τ × α) × S) := do
  let (ok, t, s) ← f s u.1
  if !ok then return (false, (t, u.2), s)
  match arm t with
  | none => return (false, (t, u.2), s)
  | some p => onField (p s u.2) (t, ·)

section Tagged

variable {f : S → τ → Except ε (Bool × τ × S)} {arm : τ → Option (S → α → Except ε (Bool × α × S))}
  {p : S → α → Except ε (Bool × α × S)} {s s' : S} {t t' : τ} {u : α}

theorem tagged_refused (hf : f s t = .ok (false, t', s')) : tagged f arm s (t, u) = .ok (false, (t', u), s') := by
  simp [tagged, hf]

theorem tagged_none (hf : f s t = .ok (true, t', s')) (ha : arm t' = none) :
    tagged f arm s (t, u) = .ok (false, (t', u), s') := by
  simp [tagged, hf, ha]

theorem tagged_some (hf : f s t = .ok (true, t', s')) (ha : arm t' = some p) :
    tagged f arm s (t, u) = onField (p s' u) (t', ·) := by
  simp [tagged, hf, ha]

/-- What a tagged object was encoded or decoded by with TRUE. -/
theorem exists_of_tagged {v : τ × α} (h : tagged f arm s (t, u) = .ok (true, v, s')) :
    ∃ t' s₁ p u', f s t = .ok (true, t', s₁) ∧ arm t' = some p ∧ p s₁ u = .ok (true, u', s') ∧ v = (t', u') := by
  obtain ⟨⟨ok, t', s₁⟩, hf, hr⟩ := exists_of_bind h
  cases ok with
  | false => cases hr
  | true =>
    cases ha : arm t' with
    | none =>
      rw [tagged_none hf ha] at h
      cases h
    | some p =>
      rw [tagged_some hf ha] at h
      obtain ⟨u', hp, rfl⟩ := exists_of_onField h
      exact ⟨t', s₁, p, u', hf, ha, hp, rfl⟩

variable {atE atD : Cursor β N → S} {ready same : α → α → Prop}

/-- A tagged object round-trips when its tag and all arms do. -/
theorem ReadsBack.tagged (hf : ReadsBack atE atD (fun _ _ => True) Eq f)
    (ht : ∀ c t t' s, f (atE c) t = .ok (true, t', s) → t' = t)
    (hp : ∀ t p, arm t = some p → ReadsBack atE atD ready same p) :
    ReadsBack atE atD (fun u v => ready u.2 v.2) (fun u v => u.1 = v.1 ∧ same u.2 v.2) (tagged f arm) := by
  rintro c ⟨t, u⟩ v s h
  obtain ⟨t', s₁, p, u', hs, ha, hu, rfl⟩ := exists_of_tagged h
  obtain rfl := ht c t t' s₁ hs
  obtain ⟨bs, hbs, rfl, hd⟩ := hf c t' t' s₁ hs
  obtain ⟨cs, hcs, rfl, hc⟩ := hp t' p ha _ u u' s hu
  rw [Cursor.room_write] at hcs
  refine ⟨bs ++ cs, by rw [List.length_append]; omega, by rw [Cursor.write_write], ?_⟩
  rintro ⟨t₀, into⟩ hr
  obtain ⟨_, rfl, htag⟩ := hd t₀ trivial
  obtain ⟨v, hv, harm⟩ := hc into hr
  refine ⟨(t', v), ⟨rfl, hv⟩, fun d r hd => ?_⟩
  rw [List.append_assoc] at hd
  have h₁ := htag d _ hd
  have h₂ := harm (d.advance bs.length) r (by rw [Cursor.ahead_advance, hd, List.drop_left])
  simp only at h₁ h₂
  simp only [tagged_some h₁ ha, h₂, onField_ok, Cursor.advance_advance, List.length_append]

end Tagged

end Wire

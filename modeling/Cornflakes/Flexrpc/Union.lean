import Cornflakes.Wire.Tagged
import Cornflakes.Flexrpc.Prim

/-!
# Discriminated unions (`flexxdr_union`)

A table of arms ends with an entry whose procedure is NULL, whatever its value is. The loop of `flexxdr_union` finds the
first arm with the value of the discriminant (`choice_table`), so that the union is an object behind a tag
(`union_eq_tagged`): it round-trips when its arms do, and both directions go on with the same arm or refuse
(`union_roundTrips`).
-/

set_option autoImplicit false

namespace Cornflakes.Flexrpc

open Wire

variable {σ α : Type}

/-- A table of `struct flexxdr_discrim`: the arms, the end marker, and whatever comes after it in memory. -/
def discrimTable (arms : List (Word × (Flexxdr σ → α → Except Fault (Outcome σ α)))) (mark : Word)
    (rest : List (FlexxdrDiscrim σ α)) : List (FlexxdrDiscrim σ α) :=
  arms.map (fun a => ⟨a.1, some a.2⟩) ++ ⟨mark, none⟩ :: rest

/-- The first arm for the discriminant `d`, or else the default. -/
def armFor (arms : List (Word × (Flexxdr σ → α → Except Fault (Outcome σ α))))
    (dfault : Option (Flexxdr σ → α → Except Fault (Outcome σ α))) (d : Word) :
    Option (Flexxdr σ → α → Except Fault (Outcome σ α)) :=
  ((arms.find? fun a => a.1 == d).map Prod.snd).or dfault

section Table

variable {arms : List (Word × (Flexxdr σ → α → Except Fault (Outcome σ α)))}
  {dfault : Option (Flexxdr σ → α → Except Fault (Outcome σ α))} {p : Flexxdr σ → α → Except Fault (Outcome σ α)}

/-- The procedure for a discriminant is in the table, or is the default. -/
theorem mem_of_armFor {d : Word} (h : armFor arms dfault d = some p) : (d, p) ∈ arms ∨ dfault = some p := by
  rcases Option.or_eq_some_iff.mp h with h | ⟨-, h⟩
  · obtain ⟨⟨v, q⟩, hf, rfl⟩ := Option.map_eq_some_iff.mp h
    have hv := List.find?_some hf
    obtain rfl : v = d := eq_of_beq hv
    exact Or.inl (List.mem_of_find?_eq_some hf)
  · exact Or.inr h

/-- The loop finds the first arm with the value, and stops at the end marker. -/
theorem choice_table (d mark : Word) (rest : List (FlexxdrDiscrim σ α)) :
    flexxdrChoice d (discrimTable arms mark rest) = .ok ((arms.find? fun a => a.1 == d).map Prod.snd) := by
  induction arms with
  | nil => rfl
  | cons a arms ih =>
    rw [discrimTable, List.map_cons, List.cons_append, flexxdrChoice, List.find?_cons]
    by_cases h : a.1 = d
    · simp only [if_pos h, beq_iff_eq.mpr h, Option.map_some]
    · simp only [if_neg h, beq_eq_false_iff_ne.mpr h]
      exact ih

/-- `flexxdr_union` is the codec of an object behind a tag. -/
theorem union_eq_tagged (X : Flexxdr σ) (d mark : Word) (u : α) (rest : List (FlexxdrDiscrim σ α)) :
    flexxdrUnion X d u (discrimTable arms mark rest) dfault = tagged flexxdrEnum (armFor arms dfault) X (d, u) := by
  unfold flexxdrUnion tagged
  rcases hf : flexxdrEnum X d with e | ⟨ok, w, X'⟩
  · rfl
  cases ok with
  | false => rfl
  | true =>
    simp only [ok_bind, Bool.not_true, Bool.false_eq_true, if_false, choice_table, armFor]
    cases (arms.find? fun a => a.1 == w).map Prod.snd with
    | none => cases dfault <;> rfl
    | some p => rfl

end Table

/-! ## Round trips -/

/-- Both directions go on with the procedure `p` after the discriminant `d`. -/
structure RunsArm (choices : List (FlexxdrDiscrim FlexxdrMem α))
    (dfault : Option (Flexxdr FlexxdrMem → α → Except Fault (Outcome FlexxdrMem α))) (d : Word)
    (p : Flexxdr FlexxdrMem → α → Except Fault (Outcome FlexxdrMem α)) : Prop where
  encode : ∀ c u, 4 ≤ c.room → flexxdrUnion (memStrm .encode c) d u choices dfault =
    onField (p (memStrm .encode (c.write (toBytes d))) u) (d, ·)
  decode : ∀ c d₀ u r, c.ahead = toBytes d ++ r → flexxdrUnion (memStrm .decode c) d₀ u choices dfault =
    onField (p (memStrm .decode (c.advance 4)) u) (d, ·)

/-- Both directions return FALSE for the discriminant `d`. -/
structure RefusesArm (choices : List (FlexxdrDiscrim FlexxdrMem α))
    (dfault : Option (Flexxdr FlexxdrMem → α → Except Fault (Outcome FlexxdrMem α))) (d : Word) : Prop where
  encode : ∀ c u, Wire.Returns (flexxdrUnion (memStrm .encode c) d u choices dfault) false
  decode : ∀ c d₀ u r, c.ahead = toBytes d ++ r →
    Wire.Returns (flexxdrUnion (memStrm .decode c) d₀ u choices dfault) false

/-- A word that was encoded with TRUE had room. -/
theorem room_of_enum {c : MemCursor} {d w : Word} {X : Flexxdr FlexxdrMem}
    (h : flexxdrEnum (memStrm .encode c) d = .ok (true, w, X)) : 4 ≤ c.room := by
  by_contra hr
  rw [enum_full d (Nat.lt_of_not_le hr)] at h
  cases h

theorem enum_readsBack : ReadsBack (memStrm .encode) (memStrm .decode) (fun _ _ => True) Eq flexxdrEnum := by
  intro c d w X h
  have hr := room_of_enum h
  rw [enum_encode d hr] at h
  cases h
  exact ⟨toBytes d, hr, rfl, fun into _ => ⟨d, rfl, enum_takes into d⟩⟩

section ReadsBack

variable (arms : List (Word × (Flexxdr FlexxdrMem → α → Except Fault (Outcome FlexxdrMem α)))) (mark : Word)
  (rest : List (FlexxdrDiscrim FlexxdrMem α))
  (dfault : Option (Flexxdr FlexxdrMem → α → Except Fault (Outcome FlexxdrMem α)))

theorem union_runsArm {d : Word} {p : Flexxdr FlexxdrMem → α → Except Fault (Outcome FlexxdrMem α)}
    (hp : armFor arms dfault d = some p) : RunsArm (discrimTable arms mark rest) dfault d p where
  encode := by
    intro c u hr
    rw [union_eq_tagged, tagged_some (enum_encode d hr) hp]
  decode := by
    intro c d₀ u r hc
    rw [union_eq_tagged, tagged_some (enum_decode d₀ hc) hp]

theorem union_refusesArm {d : Word} (hp : armFor arms dfault d = none) :
    RefusesArm (discrimTable arms mark rest) dfault d where
  encode := by
    intro c u
    rw [union_eq_tagged]
    by_cases hr : 4 ≤ c.room
    · exact ⟨_, _, tagged_none (enum_encode d hr) hp⟩
    · exact ⟨_, _, tagged_refused (enum_full d (Nat.lt_of_not_le hr))⟩
  decode := by
    intro c d₀ u r hc
    rw [union_eq_tagged]
    exact ⟨_, _, tagged_none (enum_decode d₀ hc) hp⟩

/-- **A union round-trips when all its procedures do**, and both directions go on with the first arm for the
discriminant, or else the default, or else return FALSE. -/
theorem union_roundTrips (ready same : α → α → Prop)
    (h : ∀ p, (∃ v, (v, p) ∈ arms) ∨ dfault = some p → ReadsBack (memStrm .encode) (memStrm .decode) ready same p) :
    ReadsBack (memStrm .encode) (memStrm .decode) (fun u v => ready u.2 v.2) (fun u v => u.1 = v.1 ∧ same u.2 v.2)
        (fun X v => flexxdrUnion X v.1 v.2 (discrimTable arms mark rest) dfault) ∧
      ∀ d, (∀ p, armFor arms dfault d = some p → RunsArm (discrimTable arms mark rest) dfault d p) ∧
        (armFor arms dfault d = none → RefusesArm (discrimTable arms mark rest) dfault d) := by
  refine ⟨?_, fun d => ⟨fun p hp => union_runsArm arms mark rest dfault hp, union_refusesArm arms mark rest dfault⟩⟩
  have hu : (fun (X : Flexxdr FlexxdrMem) (v : Word × α) =>
      flexxdrUnion X v.1 v.2 (discrimTable arms mark rest) dfault) = tagged flexxdrEnum (armFor arms dfault) :=
    funext fun X => funext fun v => union_eq_tagged X v.1 mark v.2 rest
  rw [hu]
  refine enum_readsBack.tagged ?_ ?_
  · intro c d w X he
    rw [enum_encode d (room_of_enum he)] at he
    cases he
    rfl
  · intro d p hp
    exact h p ((mem_of_armFor hp).imp_left fun hm => ⟨d, hm⟩)

end ReadsBack

theorem uLong_readsBack : ReadsBack (memStrm .encode) (memStrm .decode) (fun _ _ => True) Eq flexxdrULong := by
  intro c u u' X h
  by_cases hu : u.toNat < 2 ^ 32 ∧ 4 ≤ c.room
  · rw [uLong_encode hu.1 hu.2] at h
    cases h
    refine ⟨toBytes (u.setWidth 32), hu.2, rfl, fun into _ => ⟨_, ?_, uLong_takes into (u.setWidth 32)⟩⟩
    exact ((setWidth_fits u).mpr hu.1).symm
  · rw [uLong_refused hu] at h
    cases h

theorem long_readsBack : ReadsBack (memStrm .encode) (memStrm .decode) (fun _ _ => True) Eq flexxdrLong := by
  intro c lp lp' X h
  by_cases hf : (lp.setWidth 32).signExtend 64 = lp
  · by_cases hr : 4 ≤ c.room
    · have hp : flexxdrLong (memStrm .encode c) lp = _ := long_puts hf c hr
      rw [hp] at h
      cases h
      exact ⟨toBytes (lp.setWidth 32), hr, rfl, fun into _ => ⟨_, hf.symm, long_takes into (lp.setWidth 32)⟩⟩
    · simp only [flexxdrLong, memStrm_fOp, hf, and_self, if_true, putlong_full lp (Nat.lt_of_not_le hr), ok_bind,
        pure_eq_ok] at h
      cases h
  · simp only [flexxdrLong, memStrm_fOp, hf, and_false, if_false, reduceCtorEq] at h
    cases h

/-- The value 1 comes twice, and the first time counts. -/
def numberArms : List (Word × (Flexxdr FlexxdrMem → ULong → Except Fault (Outcome FlexxdrMem ULong))) :=
  [(1, flexxdrLong), (2, flexxdrULong), (1, flexxdrULong)]

/-- The end marker has a value of the table, an arm for 3 comes behind it, and every other number has the default. -/
theorem union_roundTrips_number :
    ReadsBack (memStrm .encode) (memStrm .decode) (fun _ _ => True) (fun u v => u.1 = v.1 ∧ u.2 = v.2)
        (fun X v => flexxdrUnion X v.1 v.2 (discrimTable numberArms 2 [⟨3, some flexxdrLong⟩]) (some flexxdrULong)) ∧
      ∀ d, (∀ p, armFor numberArms (some flexxdrULong) d = some p →
          RunsArm (discrimTable numberArms 2 [⟨3, some flexxdrLong⟩]) (some flexxdrULong) d p) ∧
        (armFor numberArms (some flexxdrULong) d = none →
          RefusesArm (discrimTable numberArms 2 [⟨3, some flexxdrLong⟩]) (some flexxdrULong) d) := by
  refine union_roundTrips numberArms 2 [⟨3, some flexxdrLong⟩] (some flexxdrULong) (fun _ _ => True) Eq ?_
  rintro p (⟨v, hv⟩ | hd)
  · simp only [numberArms, List.mem_cons, List.not_mem_nil, or_false, Prod.mk.injEq] at hv
    obtain ⟨-, rfl⟩ | ⟨-, rfl⟩ | ⟨-, rfl⟩ := hv
    · exact long_readsBack
    · exact uLong_readsBack
    · exact uLong_readsBack
  · cases hd
    exact uLong_readsBack

end Cornflakes.Flexrpc

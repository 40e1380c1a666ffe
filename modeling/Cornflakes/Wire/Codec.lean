import Cornflakes.Wire.Cursor

/-!
# Codecs that return a boolean

A codec is a function of a stream. Unless it fails with an error it gives a boolean, an object and the stream
afterwards.

- `onField` and `andThen` put the codec of an object together from codecs of its fields, and `runAll` runs one codec
  over a list of objects; `onStream` replaces the stream of an outcome, which they commute with;
- `Raises P r` bounds the errors of a codec and `Leaves P r` the objects it leaves, with a rule for each way to put
  codecs together;
- for streams that are cursors (`at' c`), `Puts` says what an encoder writes, `Short` and `Refuses` when it returns
  FALSE, `Takes` what a decoder makes of the cells ahead, and `Starves` that it returns FALSE when they are cut short.
  They compose along `andThen` (`Puts.field`, `Short.field`, `Refuses.field`, `Takes.field`) and along a list
  (`Puts.list`, `Takes.list`, `Starves.list`, and `Takes.cut` for a list that is cut short); `Appends` says that a codec
  only adds cells, and `Recodes` that one which serves both ways encodes what it has decoded as the cells that it took.
-/

set_option autoImplicit false

namespace Wire

variable {ε S α μ : Type}

@[simp] theorem ok_bind {γ δ : Type} (a : γ) (k : γ → Except ε δ) : (Except.ok a >>= k) = k a := rfl

@[simp] theorem error_bind {γ δ : Type} (e : ε) (k : γ → Except ε δ) : (Except.error e >>= k) = .error e := rfl

@[simp] theorem pure_eq_ok {γ : Type} (a : γ) : (pure a : Except ε γ) = .ok a := rfl

/-! ## Fields, `&&` and lists -/

/-- A codec run on a field of an object: the field's new value goes back into the object. -/
def onField (r : Except ε (Bool × α × S)) (set : α → μ) : Except ε (Bool × μ × S) := do
  let (ok, v, s) ← r
  return (ok, set v, s)

/-- `r && k`: `k` goes on after TRUE, and FALSE ends. -/
def andThen (r : Except ε (Bool × μ × S)) (k : S → μ → Except ε (Bool × μ × S)) : Except ε (Bool × μ × S) := do
  let (ok, m, s) ← r
  if ok then k s m else return (false, m, s)

/-- The codec `f` on one object after another, up to the first that returns FALSE. -/
def runAll (f : S → α → Except ε (Bool × α × S)) : S → List α → Except ε (Bool × List α × S)
  | s, [] => .ok (true, [], s)
  | s, a :: as => do
    let (ok, a, s) ← f s a
    if ok then onField (runAll f s as) (a :: ·) else return (false, a :: as, s)

@[simp] theorem onField_ok (ok : Bool) (v : α) (s : S) (set : α → μ) :
    onField (.ok (ok, v, s) : Except ε _) set = .ok (ok, set v, s) := rfl

@[simp] theorem andThen_true (m : μ) (s : S) (k : S → μ → Except ε (Bool × μ × S)) :
    andThen (.ok (true, m, s)) k = k s m := rfl

@[simp] theorem andThen_false (m : μ) (s : S) (k : S → μ → Except ε (Bool × μ × S)) :
    andThen (.ok (false, m, s)) k = .ok (false, m, s) := rfl

theorem onField_onField {ν : Type} (r : Except ε (Bool × α × S)) (set : α → μ) (set' : μ → ν) :
    onField (onField r set) set' = onField r fun a => set' (set a) := by
  rcases r with e | ⟨ok, v, s⟩
  · rfl
  · rfl

theorem mapError_onField {ε' : Type} (f : ε → ε') (r : Except ε (Bool × α × S)) (set : α → μ) :
    (onField r set).mapError f = onField (r.mapError f) set := by
  rcases r with e | ⟨ok, v, s⟩
  · rfl
  · rfl

theorem onField_error_iff (r : Except ε (Bool × α × S)) (set : α → μ) (e : ε) :
    onField r set = .error e ↔ r = .error e := by
  rcases r with e' | ⟨ok, v, s⟩
  · constructor
    · intro h
      cases h
      rfl
    · intro h
      cases h
      rfl
  · exact iff_of_false (fun h => by cases h) (fun h => by cases h)

theorem exists_of_bind {γ δ : Type} {r : Except ε γ} {k : γ → Except ε δ} {d : δ} (h : r >>= k = .ok d) :
    ∃ a, r = .ok a ∧ k a = .ok d := by
  rcases r with e | a
  · cases h
  · exact ⟨a, rfl, h⟩

theorem exists_of_onField {r : Except ε (Bool × α × S)} {set : α → μ} {ok : Bool} {m : μ} {s : S}
    (h : onField r set = .ok (ok, m, s)) : ∃ v, r = .ok (ok, v, s) ∧ set v = m := by
  rcases r with e | ⟨ok, v, s⟩
  · cases h
  · cases h
    exact ⟨v, rfl, rfl⟩

/-- An object that was coded with TRUE had its field and its rest coded with TRUE. -/
theorem exists_of_andThen {r : Except ε (Bool × α × S)} {set : α → μ} {k : S → μ → Except ε (Bool × μ × S)} {m : μ} {s : S}
    (h : andThen (onField r set) k = .ok (true, m, s)) : ∃ v s', r = .ok (true, v, s') ∧ k s' (set v) = .ok (true, m, s) := by
  rcases r with e | ⟨_ | _, v, s'⟩
  · cases h
  · cases h
  · exact ⟨v, s', rfl, h⟩

/-! ## Another stream -/

/-- The outcome with its stream replaced. -/
def onStream {S' : Type} (h : S → S') (r : Except ε (Bool × α × S)) : Except ε (Bool × α × S') :=
  r.map fun (ok, v, s) => (ok, v, h s)

section OnStream

variable {S' : Type} {h : S → S'}

theorem onField_onStream (r : Except ε (Bool × α × S)) (set : α → μ) :
    onField (onStream h r) set = onStream h (onField r set) := by
  rcases r with e | ⟨ok, v, s⟩
  · rfl
  · rfl

/-- A codec whose parts do not notice the replacement does not notice it. -/
theorem andThen_onStream {r : Except ε (Bool × μ × S)} {k : S → μ → Except ε (Bool × μ × S)}
    {k' : S' → μ → Except ε (Bool × μ × S')} (hk : ∀ s m, k' (h s) m = onStream h (k s m)) :
    andThen (onStream h r) k' = onStream h (andThen r k) := by
  rcases r with e | ⟨_ | _, m, s⟩
  · rfl
  · rfl
  · exact hk s m

end OnStream

/-! ## Results -/

/-- The codec returns `b`. -/
def Returns (r : Except ε (Bool × α × S)) (b : Bool) : Prop := ∃ a s, r = .ok (b, a, s)

theorem returns_ok (ok b : Bool) (a : α) (s : S) : Returns (.ok (ok, a, s) : Except ε _) b ↔ ok = b := by
  constructor
  · rintro ⟨a', s', h⟩
    cases h
    rfl
  · rintro rfl
    exact ⟨a, s, rfl⟩

theorem not_returns_error (e : ε) (b : Bool) : ¬ Returns (.error e : Except ε (Bool × α × S)) b := by
  rintro ⟨a, s, h⟩
  cases h

theorem not_returns_both {r : Except ε (Bool × α × S)} (ht : Returns r true) : ¬ Returns r false := by
  rintro ⟨a, s, hf⟩
  obtain ⟨a', s', ht⟩ := ht
  rw [ht] at hf
  cases hf

/-- Storing a field back does not change what a codec returns. -/
theorem returns_onField (r : Except ε (Bool × α × S)) (set : α → μ) (b : Bool) :
    Returns (onField r set) b ↔ Returns r b := by
  rcases r with e | ⟨ok, a, s⟩
  · exact iff_of_false (not_returns_error e b) (not_returns_error e b)
  · rw [onField_ok, returns_ok, returns_ok]

/-! ## Errors -/

/-- The error of `r`, if it ends with one, satisfies `P`. -/
def Raises {γ : Type} (P : ε → Prop) (r : Except ε γ) : Prop := ∀ e, r = .error e → P e

namespace Raises

variable {γ δ : Type} {P Q : ε → Prop}

theorem ok (a : γ) : Raises P (.ok a) := by
  intro e h
  cases h

theorem error {e : ε} (h : P e) : Raises P (.error e : Except ε γ) := by
  intro e' he
  cases he
  exact h

theorem weaken {r : Except ε γ} (hr : Raises P r) (h : ∀ e, P e → Q e) : Raises Q r := fun e he => h e (hr e he)

theorem bind {r : Except ε γ} {k : γ → Except ε δ} (hr : Raises P r) (hk : ∀ a, Raises P (k a)) :
    Raises P (r >>= k) := by
  intro e h
  cases r with
  | error e' =>
    cases h
    exact hr e rfl
  | ok a => exact hk a e h

theorem mapError {ε' : Type} {r : Except ε' γ} {f : ε' → ε} (h : ∀ e, P (f e)) : Raises P (r.mapError f) := by
  cases r with
  | error e => exact error (h e)
  | ok a => exact ok a

theorem onField {r : Except ε (Bool × α × S)} (hr : Raises P r) (set : α → μ) : Raises P (onField r set) :=
  hr.bind fun _ => ok _

theorem andThen {r : Except ε (Bool × μ × S)} {k : S → μ → Except ε (Bool × μ × S)} (hr : Raises P r)
    (hk : ∀ s m, Raises P (k s m)) : Raises P (andThen r k) := by
  apply hr.bind
  rintro ⟨ok', m, s⟩
  cases ok' with
  | true => exact hk s m
  | false => exact ok _

end Raises

/-! ## What is left -/

/-- The object that `r` leaves, if it returns, satisfies `P`. -/
def Leaves (P : α → Prop) (r : Except ε (Bool × α × S)) : Prop := ∀ b a s, r = .ok (b, a, s) → P a

namespace Leaves

variable {P : α → Prop} {Q : μ → Prop}

theorem ok {b : Bool} {a : α} {s : S} (h : P a) : Leaves P (.ok (b, a, s) : Except ε _) := by
  intro b' a' s' he
  cases he
  exact h

theorem error (e : ε) : Leaves P (.error e : Except ε (Bool × α × S)) := by
  intro b a s he
  cases he

theorem any (r : Except ε (Bool × α × S)) : Leaves (fun _ => True) r := fun _ _ _ _ => trivial

theorem onField {set : α → μ} {r : Except ε (Bool × α × S)} (hr : Leaves P r) (h : ∀ v, P v → Q (set v)) :
    Leaves Q (onField r set) := by
  rcases r with e | ⟨b, v, s⟩
  · exact error e
  · exact ok (h v (hr b v s rfl))

theorem andThen {r : Except ε (Bool × μ × S)} {k : S → μ → Except ε (Bool × μ × S)} (hr : Leaves Q r)
    (hk : ∀ s m, Q m → Leaves Q (k s m)) : Leaves Q (andThen r k) := by
  rcases r with e | ⟨b, m, s⟩
  · exact error e
  · cases b with
    | true => exact hk s m (hr true m s rfl)
    | false => exact ok (hr false m s rfl)

end Leaves

/-- The object that `r` leaves with TRUE satisfies `P`. -/
def Yields (P : α → Prop) (r : Except ε (Bool × α × S)) : Prop := ∀ a s, r = .ok (true, a, s) → P a

namespace Yields

variable {P : μ → Prop}

theorem refused (a : α) (s : S) (P : α → Prop) : Yields P (.ok (false, a, s) : Except ε _) := by
  intro a' s' he
  cases he

theorem of_leaves {r : Except ε (Bool × μ × S)} (h : Leaves P r) : Yields P r := h true

theorem bind {γ : Type} {r : Except ε γ} {k : γ → Except ε (Bool × μ × S)} (hk : ∀ a, Yields P (k a)) :
    Yields P (r >>= k) := by
  rcases r with e | a
  · intro m s he
    cases he
  · exact hk a

theorem andThen {r : Except ε (Bool × μ × S)} {k : S → μ → Except ε (Bool × μ × S)} (hk : ∀ s m, Yields P (k s m)) :
    Yields P (andThen r k) := by
  rcases r with e | ⟨_ | _, m, s⟩
  · intro a s' he
    cases he
  · exact refused m s P
  · exact hk s m

end Yields

/-! ## Codecs on cursors -/

/-- A cut of two parts goes through the first or spares it. -/
theorem cut_cases {β : Type} {bs cs a q : List β} (h : bs ++ cs = a ++ q) :
    (∃ b, b ≠ [] ∧ bs = a ++ b) ∨ ∃ a', a = bs ++ a' ∧ cs = a' ++ q := by
  rcases List.append_eq_append_iff.mp h with ⟨a', ha, hc⟩ | ⟨b, hb, hc⟩
  · exact Or.inr ⟨a', ha, hc⟩
  · by_cases hb0 : b = []
    · subst hb0
      exact Or.inr ⟨[], by rw [hb, List.append_nil, List.append_nil], hc.symm⟩
    · exact Or.inl ⟨b, hb0, hb⟩

section Cursors

variable {β : Type} {N : Nat} (at' : Cursor β N → S)

/-- Where there is room the codec writes `bs`, returns TRUE and leaves the object `v`. -/
def Puts (g : S → Except ε (Bool × α × S)) (v : α) (bs : List β) : Prop :=
  ∀ c, bs.length ≤ c.room → g (at' c) = .ok (true, v, at' (c.write bs))

/-- With fewer than `n` cells ahead the codec returns FALSE and leaves the object `v`. -/
def Short (g : S → Except ε (Bool × α × S)) (v : α) (n : Nat) : Prop :=
  ∀ c, c.room < n → ∃ c', g (at' c) = .ok (false, v, at' c')

/-- The codec returns FALSE everywhere and leaves the object `v`. -/
def Refuses (g : S → Except ε (Bool × α × S)) (v : α) : Prop :=
  ∀ c, ∃ c', g (at' c) = .ok (false, v, at' c')

/-- Where `bs` is ahead, whatever follows, the codec returns TRUE right after it and leaves the object `v`. -/
def Takes (g : S → Except ε (Bool × α × S)) (v : α) (bs : List β) : Prop :=
  ∀ c r, c.ahead = bs ++ r → g (at' c) = .ok (true, v, at' (c.advance bs.length))

/-- Where nothing is ahead but a proper beginning of `bs`, the codec returns FALSE. -/
def Starves (g : S → Except ε (Bool × α × S)) (bs : List β) : Prop :=
  ∀ c q, q ≠ [] → bs = c.ahead ++ q → ∃ v c', g (at' c) = .ok (false, v, at' c')

/-- A codec that serves both ways: what it decodes into `a` with TRUE at `c`, it encodes as the cells that it took. -/
def Recodes (atD atE : Cursor β N → S) (f : S → α → Except ε (Bool × α × S)) (a : α) (c : Cursor β N) : Prop :=
  ∀ v s, f (atD c) a = .ok (true, v, s) →
    ∃ n v', n ≤ c.room ∧ s = atD (c.advance n) ∧ Puts atE (fun s => f s v) v' (c.ahead.take n)

/-- Whatever the codec returns, it has only put cells after those before the cursor. -/
def Appends (g : S → Except ε (Bool × α × S)) : Prop :=
  ∀ c b a s, g (at' c) = .ok (b, a, s) → ∃ c' bs, s = at' c' ∧ c'.before = c.before ++ bs

variable {at'}
variable {f : S → Except ε (Bool × α × S)} {k : S → μ → Except ε (Bool × μ × S)} {v : α} {set : α → μ} {m : μ}
  {bs cs : List β}

/-! ### The last field -/

theorem Puts.last (hf : Puts at' f v bs) (hs : set v = m) : Puts at' (fun s => onField (f s) set) m bs := by
  intro c hc
  simp only [hf c hc, onField_ok, hs]

theorem Short.last {n : Nat} (hf : Short at' f v n) (hs : set v = m) :
    Short at' (fun s => onField (f s) set) m n := by
  intro c hc
  obtain ⟨c', h⟩ := hf c hc
  exact ⟨c', by simp only [h, onField_ok, hs]⟩

theorem Refuses.last (hf : Refuses at' f v) (hs : set v = m) : Refuses at' (fun s => onField (f s) set) m := by
  intro c
  obtain ⟨c', h⟩ := hf c
  exact ⟨c', by simp only [h, onField_ok, hs]⟩

theorem Takes.last (hf : Takes at' f v bs) : Takes at' (fun s => onField (f s) set) (set v) bs := by
  intro c r h
  simp only [hf c r h, onField_ok]

theorem Starves.last (hf : Starves at' f bs) (set : α → μ) : Starves at' (fun s => onField (f s) set) bs := by
  intro c q hq h
  obtain ⟨v, c', hf⟩ := hf c q hq h
  exact ⟨set v, c', by simp only [hf, onField_ok]⟩

/-- A codec that returns FALSE on fewer than `n` cells does so on a proper beginning of `n` cells. -/
theorem Short.starves (hf : Short at' f v bs.length) : Starves at' f bs := by
  intro c q hq h
  have hl : bs.length = c.ahead.length + q.length := by rw [h, List.length_append]
  have hp : 0 < q.length := List.length_pos_iff.mpr hq
  obtain ⟨c', hf⟩ := hf c (by unfold Cursor.room; omega)
  exact ⟨v, c', hf⟩

/-! ### A field, then the rest of the object -/

theorem Puts.field {m' : μ} (hf : Puts at' f v bs) (hs : set v = m) (hk : Puts at' (fun s => k s m) m' cs) :
    Puts at' (fun s => andThen (onField (f s) set) k) m' (bs ++ cs) := by
  intro c hc
  rw [List.length_append] at hc
  have hf := hf c (by omega)
  have hk := hk (c.write bs) (by rw [Cursor.room_write]; omega)
  simp only [hf, onField_ok, andThen_true, hs, hk, Cursor.write_write]

theorem Short.field {n : Nat} (hp : Puts at' f v bs) (hf : Short at' f v bs.length) (hs : set v = m)
    (hk : Short at' (fun s => k s m) m (n - bs.length)) : Short at' (fun s => andThen (onField (f s) set) k) m n := by
  intro c hc
  by_cases hb : bs.length ≤ c.room
  · obtain ⟨c', h⟩ := hk (c.write bs) (by rw [Cursor.room_write]; omega)
    exact ⟨c', by simp only [hp c hb, onField_ok, andThen_true, hs, h]⟩
  · obtain ⟨c', h⟩ := hf c (by omega)
    exact ⟨c', by simp only [h, onField_ok, andThen_false, hs]⟩

/-- A field that is refused ends the object. -/
theorem Refuses.field (hf : Refuses at' f v) (hs : set v = m) :
    Refuses at' (fun s => andThen (onField (f s) set) k) m := by
  intro c
  obtain ⟨c', h⟩ := hf c
  exact ⟨c', by simp only [h, onField_ok, andThen_false, hs]⟩

/-- So does a refusal of what comes after a field. -/
theorem Refuses.rest (hp : Puts at' f v bs) (hf : Short at' f v bs.length) (hs : set v = m)
    (hk : Refuses at' (fun s => k s m) m) : Refuses at' (fun s => andThen (onField (f s) set) k) m := by
  intro c
  by_cases hb : bs.length ≤ c.room
  · obtain ⟨c', h⟩ := hk (c.write bs)
    exact ⟨c', by simp only [hp c hb, onField_ok, andThen_true, hs, h]⟩
  · obtain ⟨c', h⟩ := hf c (by omega)
    exact ⟨c', by simp only [h, onField_ok, andThen_false, hs]⟩

theorem Takes.field {m' : μ} (hf : Takes at' f v bs) (hk : Takes at' (fun s => k s (set v)) m' cs) :
    Takes at' (fun s => andThen (onField (f s) set) k) m' (bs ++ cs) := by
  intro c r h
  rw [List.append_assoc] at h
  have ha : (c.advance bs.length).ahead = cs ++ r := by rw [Cursor.ahead_advance, h, List.drop_left]
  simp only [hf c _ h, onField_ok, andThen_true, hk _ r ha, Cursor.advance_advance, List.length_append]

/-! ### Appending -/

theorem Appends.onField (hf : Appends at' f) (set : α → μ) : Appends at' fun s => onField (f s) set := by
  intro c b m s h
  rcases hr : f (at' c) with e | ⟨ok, v, s'⟩
  · simp only [hr] at h
    cases h
  · simp only [hr] at h
    cases h
    exact hf c _ v _ hr

theorem Appends.andThen {g : S → Except ε (Bool × μ × S)} {P : μ → Prop} (hg : Appends at' g)
    (hl : ∀ s, Leaves P (g s)) (hk : ∀ m, P m → Appends at' fun s => k s m) :
    Appends at' fun s => andThen (g s) k := by
  intro c b m s h
  rcases hr : g (at' c) with e | ⟨ok, m', s'⟩
  · simp only [hr] at h
    cases h
  · obtain ⟨c', bs, rfl, hb⟩ := hg c ok m' s' hr
    simp only [hr] at h
    cases ok with
    | false =>
      cases h
      exact ⟨c', bs, rfl, hb⟩
    | true =>
      obtain ⟨c'', cs, rfl, hc⟩ := hk m' (hl _ true m' _ hr) c' b m s h
      exact ⟨c'', bs ++ cs, rfl, by rw [hc, hb, List.append_assoc]⟩

theorem Appends.error (e : ε) : Appends at' fun _ => (.error e : Except ε (Bool × α × S)) := by
  intro c b a s h
  cases h

/-- A codec that does nothing appends nothing. -/
theorem Appends.nothing (b : Bool) (a : α) : Appends at' fun s => (.ok (b, a, s) : Except ε _) := by
  intro c b' a' s h
  cases h
  exact ⟨c, [], rfl, by rw [List.append_nil]⟩

/-! ### Lists -/

section Lists

variable {ι : Type} {g : S → α → Except ε (Bool × α × S)} {src out : ι → α} {enc : ι → List β}

theorem Puts.list (is : List ι) (h : ∀ i ∈ is, Puts at' (fun s => g s (src i)) (out i) (enc i)) :
    Puts at' (fun s => runAll g s (is.map src)) (is.map out) (is.flatMap enc) := by
  induction is with
  | nil =>
    intro c _
    rw [List.flatMap_nil, Cursor.write_nil]
    rfl
  | cons i is ih =>
    intro c hc
    rw [List.flatMap_cons, List.length_append] at hc
    have hi := h i List.mem_cons_self c (by omega)
    have hr := ih (fun j hj => h j (List.mem_cons_of_mem i hj)) (c.write (enc i)) (by rw [Cursor.room_write]; omega)
    simp only [List.map_cons, runAll, hi, ok_bind, if_true, hr, onField_ok, List.flatMap_cons, Cursor.write_write]

theorem Takes.list (is : List ι) (h : ∀ i ∈ is, Takes at' (fun s => g s (src i)) (out i) (enc i)) :
    Takes at' (fun s => runAll g s (is.map src)) (is.map out) (is.flatMap enc) := by
  induction is with
  | nil =>
    intro c r _
    rw [List.flatMap_nil, List.length_nil, Cursor.advance_zero]
    rfl
  | cons i is ih =>
    intro c r ha
    rw [List.flatMap_cons, List.append_assoc] at ha
    have hn : (c.advance (enc i).length).ahead = is.flatMap enc ++ r := by
      rw [Cursor.ahead_advance, ha, List.drop_left]
    have hi := h i List.mem_cons_self c _ ha
    have hr := ih (fun j hj => h j (List.mem_cons_of_mem i hj)) _ r hn
    simp only [List.map_cons, runAll, hi, ok_bind, if_true, hr, onField_ok, List.flatMap_cons,
      Cursor.advance_advance, List.length_append]

theorem Starves.list (is : List ι) (ht : ∀ i ∈ is, Takes at' (fun s => g s (src i)) (out i) (enc i))
    (hs : ∀ i ∈ is, Starves at' (fun s => g s (src i)) (enc i)) :
    Starves at' (fun s => runAll g s (is.map src)) (is.flatMap enc) := by
  induction is with
  | nil =>
    intro c q hq h
    exact absurd (List.append_eq_nil_iff.mp h.symm).2 hq
  | cons i is ih =>
    have hi := hs i List.mem_cons_self
    have hti := ht i List.mem_cons_self
    intro c q hq h
    rw [List.flatMap_cons] at h
    rcases cut_cases h with ⟨b, hb0, hb⟩ | ⟨a, ha, hr⟩
    · obtain ⟨v, c', hv⟩ := hi c b hb0 hb
      refine ⟨v :: is.map src, c', ?_⟩
      simp only [List.map_cons, runAll, hv, ok_bind, Bool.false_eq_true, if_false, pure_eq_ok]
    · -- The item is there in full, and the cells end in a later one.
      have hn : (c.advance (enc i).length).ahead = a := by rw [Cursor.ahead_advance, ha, List.drop_left]
      obtain ⟨v, c', hv⟩ := ih (fun j hj => ht j (List.mem_cons_of_mem i hj))
        (fun j hj => hs j (List.mem_cons_of_mem i hj)) _ q hq (by rw [hn]; exact hr)
      exact ⟨out i :: v, c', by simp only [List.map_cons, runAll, hti c a ha, ok_bind, if_true, hv, onField_ok]⟩

/-! ### The end of a list -/

theorem runAll_error {s : S} {a : α} {e : ε} (h : g s a = .error e) (as : List α) :
    runAll g s (a :: as) = .error e := by
  rw [runAll, h, error_bind]

theorem runAll_refused {s s' : S} {a v : α} (h : g s a = .ok (false, v, s')) (as : List α) :
    runAll g s (a :: as) = .ok (false, v :: as, s') := by
  rw [runAll, h]
  rfl

/-- The cells end in one of the items, with a proper beginning of it ahead. -/
theorem Takes.cut (is : List ι) (h : ∀ i ∈ is, Takes at' (fun s => g s (src i)) (out i) (enc i)) {c : Cursor β N}
    {q : List β} (hq : q ≠ []) (hc : is.flatMap enc = c.ahead ++ q) :
    ∃ js i ks c' p, is = js ++ i :: ks ∧ p ≠ [] ∧ enc i = c'.ahead ++ p ∧ c.ahead = js.flatMap enc ++ c'.ahead ∧
      runAll g (at' c) (is.map src) = onField (runAll g (at' c') ((i :: ks).map src)) (js.map out ++ ·) := by
  induction is generalizing c with
  | nil => exact absurd (List.append_eq_nil_iff.mp hc.symm).2 hq
  | cons i is ih =>
    rw [List.flatMap_cons] at hc
    rcases cut_cases hc with ⟨b, hb0, hb⟩ | ⟨a, ha, hr⟩
    · refine ⟨[], i, is, c, b, rfl, hb0, hb, rfl, ?_⟩
      rcases runAll g (at' c) ((i :: is).map src) with e | ⟨ok, vs, s⟩
      · rfl
      · rfl
    · -- The item is there in full, and the cells end in a later one.
      have hn : (c.advance (enc i).length).ahead = a := by rw [Cursor.ahead_advance, ha, List.drop_left]
      obtain ⟨js, j, ks, c', p, rfl, hp, hj, hjs, hrun⟩ := ih (fun j hj => h j (List.mem_cons_of_mem i hj))
        (c := c.advance (enc i).length) (by rw [hn]; exact hr)
      refine ⟨i :: js, j, ks, c', p, rfl, hp, hj, ?_, ?_⟩
      · rw [ha, List.flatMap_cons, List.append_assoc, ← hjs, hn]
      · have hi := h i List.mem_cons_self c a ha
        simp only at hi
        simp only [List.map_cons, runAll, hi, ok_bind, if_true]
        rw [hrun, onField_onField]
        rfl

end Lists

end Cursors

end Wire

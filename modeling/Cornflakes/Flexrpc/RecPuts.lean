import Cornflakes.Flexrpc.RecSend

/-!
# Writing into the output area

Calls of `putlong` and `putbytes` that fit before `out_boundary` are to put their bytes one after another at
`out_finger` (`Appends`). `putbytes` does (`recPutbytes_fits`). `putlong` stores its word and sets `out_finger` back to
the place of the word, so that the next call overwrites it: calls append exactly when there is no `putlong` among them
(`appends_iff`).
-/

set_option autoImplicit false

namespace Cornflakes.Flexrpc

open Wire

variable {ρ ω : Type}

/-- The bytes were put after what was there, and `writeit` was not called. -/
structure Appended (s s' : RecStrm ρ ω) (bs : List Byte) : Prop where
  finger : s'.outFinger = s.outFinger + bs.length
  bytes : s'.mem.load s.outFinger bs.length = bs
  before : ∀ x, x < s.outFinger → s'.mem x = s.mem x
  unsent : s'.sent = s.sent ∧ s'.writer = s.writer

/-- Every call returns TRUE, and together they append their bytes. -/
def Appends (T : Transport ρ ω) (s : RecStrm ρ ω) (ops : List PutOp) : Prop :=
  ∃ s', run (trueStep T) s (ops.map PutOp.op) = some s' ∧ Appended s s' (ops.flatMap PutOp.bytes)

/-- The bytes that the calls are to put. -/
def putSize (ops : List PutOp) : Nat := (ops.flatMap PutOp.bytes).length

/-- The number of `putlong` calls. -/
def longs : List PutOp → Nat
  | [] => 0
  | .putlong _ :: ops => longs ops + 1
  | .putbytes _ _ :: ops => longs ops

theorem longs_eq_zero_iff (ops : List PutOp) : longs ops = 0 ↔ ∀ lp, PutOp.putlong lp ∉ ops := by
  induction ops with
  | nil => simp [longs]
  | cons o ops ih =>
    cases o with
    | putlong lp => exact iff_of_false (Nat.succ_ne_zero _) fun h => h lp List.mem_cons_self
    | putbytes addr h => simpa [longs] using ih

/-! ## One call -/

/-- What a call that puts bytes does to the stream. -/
structure Adds (s s' : RecStrm ρ ω) (bs : List Byte) : Prop where
  finger : s'.outFinger = s.outFinger + bs.length
  boundary : s'.outBoundary = s.outBoundary
  mem : s'.mem = s.mem.store s.outFinger bs
  sent : s'.sent = s.sent
  writer : s'.writer = s.writer

theorem Adds.nil (s : RecStrm ρ ω) : Adds s s [] :=
  ⟨(Int.add_zero _).symm, rfl, (Heap.store_nil s.mem _).symm, rfl, rfl⟩

theorem Adds.append {s s' s'' : RecStrm ρ ω} {bs cs : List Byte} (h : Adds s s' bs) (h' : Adds s' s'' cs) :
    Adds s s'' (bs ++ cs) where
  finger := by
    rw [h'.finger, h.finger, List.length_append]
    omega
  boundary := h'.boundary.trans h.boundary
  mem := by rw [h'.mem, h.mem, h.finger, Heap.store_append]
  sent := h'.sent.trans h.sent
  writer := h'.writer.trans h.writer

theorem Adds.appended {s s' : RecStrm ρ ω} {bs : List Byte} (h : Adds s s' bs) : Appended s s' bs where
  finger := h.finger
  bytes := by rw [h.mem, Heap.load_store_same]
  before := by
    intro x hx
    rw [h.mem]
    apply Heap.store_of_not_within
    intro hw
    exact absurd hw.1 (Int.not_le.mpr hx)
  unsent := ⟨h.sent, h.writer⟩

section Calls

variable (T : Transport ρ ω) {s s' : RecStrm ρ ω} {addr : List Byte}

/-- The word is stored, and `out_finger` is where it was. -/
theorem putlong_finger {lp : ULong} (h : flexxdrrecPutlong T s lp = (true, s')) :
    s'.outFinger = s.outFinger ∧ s'.outBoundary = s.outBoundary := by
  unfold flexxdrrecPutlong at h
  dsimp only at h
  split at h
  · cases h
  · cases h
    exact ⟨rfl, rfl⟩

theorem putbytes_adds (h : addr.length ≤ toUInt (s.outBoundary - s.outFinger)) :
    ∃ s', flexxdrrecPutbytes T s addr = some (true, s') ∧ Adds s s' addr := by
  by_cases ha : addr.length > 0
  · exact ⟨_, recPutbytes_fits ha h, rfl, rfl, rfl, rfl, rfl⟩
  · obtain rfl : addr = [] := List.length_eq_zero_iff.mp (by omega)
    exact ⟨s, recPutbytes_done ha, .nil s⟩

/-- Where the room is a multiple of 2^32, nothing is copied, and the loop goes round. -/
theorem putbytes_stuck (ha : addr.length > 0) (h0 : toUInt (s.outBoundary - s.outFinger) = 0)
    (hb : s.outFinger ≠ s.outBoundary) : flexxdrrecPutbytes T s addr = none := by
  have hc : putbytesCopy s addr = _ := putbytesCopy_eq (n := 0) (by rw [h0, Nat.min_zero])
  have hne : s.outFinger + ((0 : Nat) : Int) ≠ s.outBoundary := by
    rwa [Int.natCast_zero, Int.add_zero]
  rw [recPutbytes_next ha hc (fun h => hne h.1), if_pos (by rw [List.drop_zero])]

/-- Bytes that fit, but not in the room that a `u_int` has, are never put in full. -/
theorem putbytes_wraps (hfit : (addr.length : Int) ≤ s.outBoundary - s.outFinger)
    (h : toUInt (s.outBoundary - s.outFinger) < addr.length) : flexxdrrecPutbytes T s addr = none := by
  generalize hn : toUInt (s.outBoundary - s.outFinger) = n at h
  have hc : putbytesCopy s addr = _ := putbytesCopy_eq (n := n) (by rw [hn, min_eq_right (Nat.le_of_lt h)])
  have hd : (n : Int) = (s.outBoundary - s.outFinger) % 2 ^ 32 := by
    rw [← hn, toUInt]
    omega
  have hb : s.outFinger + (n : Int) ≠ s.outBoundary := by omega
  rw [recPutbytes_next (by omega) hc (fun h => hb h.1)]
  split
  · rfl
  · refine putbytes_stuck T ?_ ?_ hb
    · rw [List.length_drop]
      omega
    · show toUInt (s.outBoundary - (s.outFinger + n)) = 0
      unfold toUInt
      omega

end Calls

/-! ## Sequences of calls -/

section Runs

variable (T : Transport ρ ω) {s s' : RecStrm ρ ω} {ops : List PutOp}

theorem trueStep_putlong {lp : ULong} (h : trueStep T s (.putlong lp) = some s') :
    flexxdrrecPutlong T s lp = (true, s') := by
  rcases hp : flexxdrrecPutlong T s lp with ⟨ok, s₁⟩
  simp only [trueStep, RecOp.call, hp] at h
  cases ok with
  | false => cases h
  | true =>
    cases h
    rfl

theorem trueStep_putbytes {addr : List Byte} (hl : addr.length < 2 ^ 32) :
    trueStep T s (.putbytes addr hl) = some s' ↔ flexxdrrecPutbytes T s addr = some (true, s') := by
  rcases hp : flexxdrrecPutbytes T s addr with _ | ⟨_ | _, s₁⟩
  · simp [trueStep, RecOp.call, hp]
  · simp [trueStep, RecOp.call, hp]
  · simp [trueStep, RecOp.call, hp]

/-- Without `putlong` the calls append what there is room for. -/
theorem run_adds (hn : longs ops = 0) (h : putSize ops ≤ toUInt (s.outBoundary - s.outFinger)) :
    ∃ s', run (trueStep T) s (ops.map PutOp.op) = some s' ∧ Adds s s' (ops.flatMap PutOp.bytes) := by
  induction ops generalizing s with
  | nil => exact ⟨s, rfl, .nil s⟩
  | cons o ops ih =>
    cases o with
    | putlong lp => cases hn
    | putbytes addr hl =>
      have hs : putSize (.putbytes addr hl :: ops) = addr.length + putSize ops := List.length_append
      obtain ⟨s₁, h₁, ha⟩ := putbytes_adds T (show addr.length ≤ toUInt (s.outBoundary - s.outFinger) by omega)
      have hroom : putSize ops ≤ toUInt (s₁.outBoundary - s₁.outFinger) := by
        rw [ha.boundary, ha.finger]
        unfold toUInt at h ⊢
        omega
      obtain ⟨s', hr, ha'⟩ := ih hn hroom
      refine ⟨s', ?_, ha.append ha'⟩
      rw [List.map_cons, PutOp.op, run_cons ((trueStep_putbytes T hl).mpr h₁), hr]

/-- Calls that return TRUE leave `out_finger` four bytes short for every `putlong`. -/
theorem run_short (hf : putSize ops ≤ s.outBoundary - s.outFinger)
    (hr : run (trueStep T) s (ops.map PutOp.op) = some s') :
    s'.outFinger + 4 * longs ops = s.outFinger + putSize ops ∧
      (longs ops = 0 → putSize ops ≤ toUInt (s.outBoundary - s.outFinger)) := by
  induction ops generalizing s with
  | nil =>
    cases hr
    exact ⟨rfl, fun _ => Nat.zero_le _⟩
  | cons o ops ih =>
    rw [List.map_cons, run, Option.bind_eq_some_iff] at hr
    obtain ⟨s₁, h₁, hr⟩ := hr
    cases o with
    | putlong lp =>
      have hs : putSize (.putlong lp :: ops) = 4 + putSize ops := List.length_append
      obtain ⟨hfin, hbnd⟩ := putlong_finger T (trueStep_putlong T h₁)
      obtain ⟨he, -⟩ := ih (by rw [hfin, hbnd]; omega) hr
      rw [hfin] at he
      refine ⟨?_, fun hn => by cases hn⟩
      rw [longs]
      omega
    | putbytes addr hl =>
      have hs : putSize (.putbytes addr hl :: ops) = addr.length + putSize ops := List.length_append
      have h₂ := (trueStep_putbytes T hl).mp h₁
      have hfit : addr.length ≤ toUInt (s.outBoundary - s.outFinger) := by
        by_contra hlt
        rw [putbytes_wraps T (by omega) (Nat.lt_of_not_le hlt)] at h₂
        cases h₂
      obtain ⟨s₂, hp, ha⟩ := putbytes_adds T hfit
      rw [h₂] at hp
      cases hp
      obtain ⟨he, hu⟩ := ih (by rw [ha.finger, ha.boundary]; omega) hr
      rw [ha.finger] at he
      rw [ha.finger, ha.boundary] at hu
      refine ⟨?_, fun hn => ?_⟩
      · rw [longs]
        omega
      · have hu := hu hn
        unfold toUInt at hfit hu ⊢
        omega

/-- **Calls that fit append exactly when there is no `putlong` among them**, and their bytes fit in the room as a
`u_int` as well. -/
theorem appends_iff (hf : putSize ops ≤ s.outBoundary - s.outFinger) :
    Appends T s ops ↔ (∀ lp, PutOp.putlong lp ∉ ops) ∧ putSize ops ≤ toUInt (s.outBoundary - s.outFinger) := by
  rw [← longs_eq_zero_iff]
  constructor
  · rintro ⟨s', hr, ha⟩
    obtain ⟨he, hu⟩ := run_short T hf hr
    have hfin : s'.outFinger = s.outFinger + putSize ops := ha.finger
    have hn : longs ops = 0 := by omega
    exact ⟨hn, hu hn⟩
  · rintro ⟨hn, hu⟩
    obtain ⟨s', hr, ha⟩ := run_adds T hn hu
    exact ⟨s', hr, ha.appended⟩

end Runs

/-- Two words for a new stream, which has room for them. -/
def twoWords : List PutOp := [.putlong 1, .putlong 2]

theorem appends_iff_bytes :
    Appends sink newStream [.putbytes [1, 2] (by decide)] ↔
      (∀ lp, PutOp.putlong lp ∉ [PutOp.putbytes [1, 2] (by decide)]) ∧
        putSize [.putbytes [1, 2] (by decide)] ≤ toUInt (newStream.outBoundary - newStream.outFinger) :=
  appends_iff sink (by decide)

/-- The second word is stored over the first one. -/
theorem words_overwritten : putSize twoWords ≤ newStream.outBoundary - newStream.outFinger ∧
    ¬ Appends sink newStream twoWords := by
  have hf : putSize twoWords ≤ newStream.outBoundary - newStream.outFinger := by decide
  refine ⟨hf, ?_⟩
  rintro ⟨s', hr, ha⟩
  obtain ⟨he, -⟩ := run_short sink hf hr
  have hfin : s'.outFinger = newStream.outFinger + putSize twoWords := ha.finger
  rw [hfin] at he
  exact absurd he (by decide)

end Cornflakes.Flexrpc

import Cornflakes.Wire.Interleave
import Cornflakes.Flexrpc.Feed

/-!
# Receiving and sending at one stream

`out_boundary` is 16 bytes behind `in_base`, so the end of the output area is also the start of the input area. A call
that sends is `Clear` when it neither stores into the four cells of the window nor hands one of them to `writeit`. As
long as the sends are clear, they do not disturb the calls that receive and are not disturbed by them; the first one that
is not clear can be seen from one of the sides (`undisturbed_iff`).
-/

set_option autoImplicit false

namespace Cornflakes.Flexrpc

open Wire

variable {ρ ω : Type}

/-- A call of either side; those that receive are on the left and give their result. -/
def duplexStep (fuel : Nat) (T : Transport ρ ω) (s : RecStrm ρ ω) :
    TakeOp ⊕ SendOp → Option (List RecResult × RecStrm ρ ω)
  | .inl o => (o.op.call fuel T s).map fun r => ([r.1], r.2)
  | .inr o => (o.op.call fuel T s).map fun r => ([], r.2)

/-- The stream after a call that sends. -/
def sendStep (fuel : Nat) (T : Transport ρ ω) (s : RecStrm ρ ω) (o : SendOp) : Option (RecStrm ρ ω) :=
  recStep fuel T s o.op

/-- Whatever calls that receive come between the sends `ps` on a new stream, they give what they give without the sends,
and `writeit` gets what it gets without them. -/
def Undisturbed (sendsize recvsize : Word) (buf : Int) (ps : List SendOp) : Prop :=
  ∀ (ρ ω : Type) (T : Transport ρ ω) (mem : Heap Byte) (reader : ρ) (writer : ω) (locals : Nat → Word) (fuel : Nat)
    (os : List (TakeOp ⊕ SendOp)), rights os = ps →
    let s := flexxdrrecCreate sendsize recvsize buf mem reader writer locals
    (outputs (duplexStep fuel T) s os).map (fun r => r.1.flatten) =
        (outputs (takeStep fuel T) s (lefts os)).map Prod.fst ∧
      ∀ rs s', outputs (duplexStep fuel T) s os = some (rs, s') →
        ∃ u, run (sendStep fuel T) s ps = some u ∧ u.sent = s'.sent

/-! ## Clear sends -/

namespace Effect

/-- The call stores at `x` or hands the byte there to `writeit`. -/
def Touches (e : Effect) (x : Int) : Prop :=
  (∃ w ∈ e.stores, Heap.Within x w.1 w.2.length) ∨ ∃ a ∈ e.block, Heap.Within x a 4

instance (e : Effect) (x : Int) : Decidable (e.Touches x) := inferInstanceAs (Decidable (_ ∨ _))

end Effect

def OutSide.next (p : OutSide) (o : SendOp) : Option OutSide := some (p.effect o).next

/-- The call leaves alone the four cells from `base` on. -/
def Clear (base : Int) (p : OutSide) (o : SendOp) : Prop := ∀ i < 4, ¬ (p.effect o).Touches (base + (i : Nat))

instance (base : Int) (p : OutSide) (o : SendOp) : Decidable (Clear base p o) :=
  inferInstanceAs (Decidable (∀ i < 4, _))

/-- A new stream over memory that is full of one byte. -/
def uniform (sendsize recvsize : Word) (buf : Int) (c : Byte) : RecStrm Unit Unit :=
  flexxdrrecCreate sendsize recvsize buf (fun _ => c) () () fun _ => 0

/-- Every one of the sends is clear of the window, from a new stream on. -/
def SendsClear (sendsize recvsize : Word) (buf : Int) (ps : List SendOp) : Prop :=
  let s := uniform sendsize recvsize buf 0
  Throughout OutSide.next (Clear s.inBase) s.outSide ps

theorem Clear.within {base x : Int} {p : OutSide} {o : SendOp} (h : Clear base p o) (hx : Heap.Within x base 4) :
    ¬ (p.effect o).Touches x := by
  obtain ⟨h₁, h₂⟩ := hx
  have hn := h (x - base).toNat (by omega)
  rwa [show base + ((x - base).toNat : Int) = x by omega] at hn

section Steps

variable {T : Transport ρ ω} {s s' u u' : RecStrm ρ ω} {fuel : Nat} {o : SendOp} {base : Int}

/-- A clear send leaves the receiving side as it was. -/
theorem Effect.Holds.inlet (h : (s.outSide.effect o).Holds s s') (hc : Clear s.inBase s.outSide o) :
    s'.inlet = s.inlet := by
  have hi := h.inSide
  simp only [RecStrm.inSide, Prod.mk.injEq] at hi
  obtain ⟨⟨-, hb, hf, hw⟩, hn, hl, hr, ho⟩ := hi
  have hm : s'.mem.load s.inBase 4 = s.mem.load s.inBase 4 := by
    apply Heap.load_congr
    intro x hx
    rw [h.mem]
    apply Heap.storeAll_of_not_within
    intro w hw hx'
    exact hc.within hx (Or.inl ⟨w, hw, hx'⟩)
  rw [RecStrm.inlet, RecStrm.inlet, hb, hf, hw, hn, hl, hr, ho, hm]

theorem Effect.Holds.inBase (h : (s.outSide.effect o).Holds s s') : s'.inBase = s.inBase :=
  congrArg (fun i => i.1.2.1) h.inSide

/-- A call that sends, as a step. -/
theorem send_step (h : Placed s) (fuel : Nat) (o : SendOp) : ∃ s', duplexStep fuel T s (.inr o) = some ([], s') ∧
    sendStep fuel T s o = some s' ∧ Placed s' ∧ (s.outSide.effect o).Holds s s' := by
  obtain ⟨r, s', hr, he⟩ := send_effect T h.1 fuel o
  refine ⟨s', ?_, ?_, h.call hr, he⟩
  · rw [duplexStep, hr]
    rfl
  · rw [sendStep, recStep, hr]
    rfl

/-- A call that receives, as a step. -/
theorem take_step {o : TakeOp} {r : List RecResult × RecStrm ρ ω} (h : Placed s)
    (hr : duplexStep fuel T s (.inl o) = some r) : Placed r.2 ∧ Beside s r.2 := by
  obtain ⟨r₁, hc, rfl⟩ := Option.map_eq_some_iff.mp hr
  exact ⟨h.call hc, Beside.call T h.1 hc⟩

/-! ## Sends that are clear -/

theorem outputs_takes (h : Placed s) (fuel : Nat) (os : List (TakeOp ⊕ SendOp))
    (hc : Throughout OutSide.next (Clear s.inBase) s.outSide (rights os)) :
    (outputs (duplexStep fuel T) s os).map (fun r => r.1.flatten) =
      (outputs (takeStep fuel T) s (lefts os)).map Prod.fst := by
  let Inv (s₁ : RecStrm ρ ω) : Prop := Placed s₁ ∧ s₁.inBase = s.inBase
  have hown (s₁ : RecStrm ρ ω) (o : TakeOp) (h₁ : Inv s₁) :
      (duplexStep fuel T s₁ (.inl o)).map (fun r => (r.1, r.2.inlet)) =
        (s₁.inlet.call fuel T o).map fun r => ([r.1], r.2) := by
    rw [(call_inlet h₁.1 fuel o).1, duplexStep, Option.map_map, Option.map_map]
    rfl
  have hleft (s₁ : RecStrm ρ ω) (o : TakeOp) (r : List RecResult × RecStrm ρ ω) (h₁ : Inv s₁)
      (hr : duplexStep fuel T s₁ (.inl o) = some r) : Inv r.2 ∧ r.2.outSide = s₁.outSide := by
    obtain ⟨hp, hb⟩ := take_step h₁.1 hr
    exact ⟨⟨hp, hb.inBase.trans h₁.2⟩, hb.outSide⟩
  have hright (s₁ : RecStrm ρ ω) (o : SendOp) (h₁ : Inv s₁) (hcl : Clear s.inBase s₁.outSide o) :
      ∃ s₂, duplexStep fuel T s₁ (.inr o) = some ([], s₂) ∧ Inv s₂ ∧ s₂.inlet = s₁.inlet ∧
        s₁.outSide.next o = some s₂.outSide := by
    obtain ⟨s₂, hd, -, hp, he⟩ := send_step (T := T) h₁.1 fuel o
    rw [← h₁.2] at hcl
    exact ⟨s₂, hd, ⟨hp, he.inBase.trans h₁.2⟩, he.inlet hcl, congrArg some he.outSide.symm⟩
  rw [outputs_lefts hown hleft hright ⟨h, rfl⟩ os hc]
  exact (h.results_inlet T fuel (lefts os)).symm

/-- The state of the sends' own run: it has the same sending side, and the same memory but for the window. -/
structure OwnRun (base : Int) (s u : RecStrm ρ ω) : Prop where
  placed : Placed s
  own : Placed u
  inBase : s.inBase = base
  outSide : u.outSide = s.outSide
  mem : ∀ x, ¬ Heap.Within x base 4 → u.mem x = s.mem x
  sent : u.sent = s.sent

theorem OwnRun.take (h : OwnRun base s u) (hp : Placed s') (hb : Beside s s') : OwnRun base s' u := by
  refine ⟨hp, h.own, hb.inBase.trans h.inBase, h.outSide.trans hb.outSide.symm, fun x hx => ?_,
    h.sent.trans hb.sent.symm⟩
  rw [h.mem x hx, hb.mem x (by rwa [h.inBase])]

theorem OwnRun.send (h : OwnRun base s u) (hc : Clear base s.outSide o) (hp : Placed s') (hu : Placed u')
    (hs : (s.outSide.effect o).Holds s s') (hs' : (u.outSide.effect o).Holds u u') : OwnRun base s' u' := by
  rw [h.outSide] at hs'
  have hm (x : Int) (hx : ¬ Heap.Within x base 4) : u'.mem x = s'.mem x := by
    rw [hs.mem, hs'.mem]
    exact Heap.storeAll_congr (h.mem x hx)
  refine ⟨hp, hu, hs.inBase.trans h.inBase, hs'.outSide.trans hs.outSide.symm, hm, ?_⟩
  rw [hs.sent, hs'.sent, h.sent]
  cases hb : (s.outSide.effect o).block with
  | none => rfl
  | some a =>
    -- The block lies beside the window.
    have hl : u'.mem.load a 4 = s'.mem.load a 4 := by
      apply Heap.load_congr
      intro x hx
      exact hm x fun hw => hc.within hw (Or.inr ⟨a, hb, hx⟩)
    simp only [Option.map_some, hl]

theorem run_sends (h : Placed s) {os : List (TakeOp ⊕ SendOp)}
    (hc : Throughout OutSide.next (Clear s.inBase) s.outSide (rights os)) {rs : List (List RecResult)}
    (hr : outputs (duplexStep fuel T) s os = some (rs, s')) :
    ∃ u, run (sendStep fuel T) s (rights os) = some u ∧ u.sent = s'.sent := by
  have hleft (s₁ u₁ : RecStrm ρ ω) (o : TakeOp) (r : List RecResult × RecStrm ρ ω) (h₁ : OwnRun s.inBase s₁ u₁)
      (hr₁ : duplexStep fuel T s₁ (.inl o) = some r) : OwnRun s.inBase r.2 u₁ ∧ r.2.outSide = s₁.outSide := by
    obtain ⟨hp, hb⟩ := take_step h₁.placed hr₁
    exact ⟨h₁.take hp hb, hb.outSide⟩
  have hright (s₁ u₁ : RecStrm ρ ω) (o : SendOp) (h₁ : OwnRun s.inBase s₁ u₁) (hcl : Clear s.inBase s₁.outSide o) :
      ∃ s₂ u₂, duplexStep fuel T s₁ (.inr o) = some ([], s₂) ∧ sendStep fuel T u₁ o = some u₂ ∧
        OwnRun s.inBase s₂ u₂ ∧ s₁.outSide.next o = some s₂.outSide := by
    obtain ⟨s₂, hd, -, hp, he⟩ := send_step (T := T) h₁.placed fuel o
    obtain ⟨u₂, -, hu₂, hpu, heu⟩ := send_step (T := T) h₁.own fuel o
    exact ⟨s₂, u₂, hd, hu₂, h₁.send hcl hp hpu he heu, congrArg some he.outSide.symm⟩
  obtain ⟨u, hu, hR⟩ := run_rights hleft hright ⟨h, h, rfl, rfl, fun _ _ => rfl, rfl⟩ hc hr
  exact ⟨u, hu, hR.sent⟩

end Steps

/-! ## Pieces of an interleaving -/

section Pieces

variable {T : Transport ρ ω} {s s' : RecStrm ρ ω} {fuel : Nat}

/-- The sends `ps` lead from one state to the other. -/
structure Sent (fuel : Nat) (T : Transport ρ ω) (s : RecStrm ρ ω) (ps : List SendOp) (s' : RecStrm ρ ω) : Prop where
  outputs : outputs (duplexStep fuel T) s (ps.map Sum.inr) = some (ps.map fun _ => [], s')
  run : run (sendStep fuel T) s ps = some s'
  placed : Placed s'
  sent : s.sent <+: s'.sent
  next : Wire.run OutSide.next s.outSide ps = some s'.outSide
  inBase : s'.inBase = s.inBase
  inlet : Throughout OutSide.next (Clear s.inBase) s.outSide ps → s'.inlet = s.inlet

/-- All sends return. -/
theorem exists_sent (fuel : Nat) (T : Transport ρ ω) (h : Placed s) (ps : List SendOp) : ∃ s', Sent fuel T s ps s' := by
  induction ps generalizing s with
  | nil => exact ⟨s, rfl, rfl, h, List.prefix_refl _, rfl, rfl, fun _ => rfl⟩
  | cons o ps ih =>
    obtain ⟨s₁, hd, hr, hp, he⟩ := send_step (T := T) h fuel o
    obtain ⟨s', h'⟩ := ih hp
    have hn : s.outSide.next o = some s₁.outSide := congrArg some he.outSide.symm
    refine ⟨s', outputs_cons hd h'.outputs, ?_, h'.placed, ?_, ?_, h'.inBase.trans he.inBase, fun hc => ?_⟩
    · rw [run_cons hr, h'.run]
    · apply List.IsPrefix.trans _ h'.sent
      rw [he.sent]
      apply List.prefix_append
    · rw [run_cons hn, h'.next]
    · rw [h'.inlet (by rw [he.inBase]; exact hc.2 _ hn), he.inlet hc.1]

/-- Receiving calls that return on the receiving side. -/
theorem exists_taken (h : Placed s) {os : List TakeOp} {rs : List RecResult} {v : Inlet ρ}
    (ho : outputs (Inlet.call fuel T) s.inlet os = some (rs, v)) :
    ∃ s', outputs (duplexStep fuel T) s (os.map Sum.inl) = some (rs.map fun r => [r], s') ∧ s'.inlet = v ∧ Placed s' ∧
      Beside s s' := by
  induction os generalizing s rs with
  | nil =>
    cases ho
    exact ⟨s, rfl, rfl, h, Beside.refl s⟩
  | cons o os ih =>
    obtain ⟨⟨r₁, v₁⟩, h₁, h₂⟩ := Option.bind_eq_some_iff.mp ho
    obtain ⟨⟨rs', v'⟩, h₃, he⟩ := Option.map_eq_some_iff.mp h₂
    cases he
    rw [(call_inlet h fuel o).1, Option.map_eq_some_iff] at h₁
    obtain ⟨⟨r, s₁⟩, hc, he⟩ := h₁
    cases he
    obtain ⟨s', ho', hv, hp, hb⟩ := ih (h.call hc) h₃
    refine ⟨s', outputs_cons ?_ ho', hv, hp, (Beside.call T h.1 hc).trans hb⟩
    rw [duplexStep, hc]
    rfl

end Pieces

/-! ## A word that is read again and again -/

/-- A transport that stores the same bytes at every call. -/
def pour (bs : List Byte) : Transport Unit Unit where
  readit _ n := (bs.take n, 0, ())
  length_readit _ n := by
    rw [List.length_take]
    exact Nat.min_le_left _ _
  writeit _ _ := (0, ())

namespace Inlet

variable {v : Inlet Unit} {bs : List Byte} {w : Word}

/-- Nothing is unread, and every refill leaves the word `w` in the cells. -/
structure Poured (bs : List Byte) (w : Word) (v : Inlet Unit) : Prop where
  unread : v.unread = 0
  length : bs.length ≤ 4
  cells : bs ++ v.cells.drop bs.length = toBytes w

namespace Poured

theorem getInput (h : Poured bs w v) : v.getInput (pour bs) 4 = (true, toBytes w, { v with cells := toBytes w }) := by
  have hr : v.refill (pour bs) = (true, { v with cells := toBytes w, unread := 4 }) := by
    rw [refill, if_pos h.unread]
    simp only [pour, List.take_of_length_le h.length, h.cells]
    exact if_neg (by omega)
  rw [Inlet.getInput, if_neg (Nat.succ_ne_zero 3), hr]
  have hu := h.unread
  cases v
  cases hu
  rfl

theorem again {v' : Inlet Unit} (h : Poured bs w v) (hu : v'.unread = 0) (hc : v'.cells = toBytes w) :
    Poured bs w v' := by
  refine ⟨hu, h.length, ?_⟩
  rw [hc, ← h.cells, List.drop_left]

theorem getbytes (h : Poured bs w v) (hf : 4 ≤ v.fbtbc) : v.getbytes (pour bs) 4 =
    (true, (toBytes w).map some, { v with cells := toBytes w, fbtbc := v.fbtbc - 4 }) := by
  have hmin : min 4 v.fbtbc = 4 := Nat.min_eq_left hf
  have hg := h.getInput
  rw [getbytes_next (Nat.succ_ne_zero 3) (by omega) (by rw [hmin]; exact hg), hmin, Nat.sub_self, getbytes_zero,
    length_toBytes]
  simp

theorem getlong (h : Poured bs w v) (hf : 4 ≤ v.fbtbc) : ∃ v', v.getlong (pour bs) = (some (w.signExtend 64), v') ∧
    v'.unread = 0 ∧ v'.cells = toBytes w ∧ v'.fbtbc = v.fbtbc - 4 := by
  have hu := h.unread
  have hv : Poured bs w { v with locals := fun n => v.locals (n + 1) } := ⟨hu, h.length, h.cells⟩
  refine ⟨⟨toBytes w, v.unread, v.fbtbc - 4, v.lastFrag, v.reader, fun n => v.locals (n + 1)⟩, ?_, hu, rfl, rfl⟩
  rw [getlong_slow (by omega) (hv.getbytes hf), if_pos rfl, overlay_word]

/-- The word is first a header, and then what the fragment has. -/
theorem opened (h : Poured bs w v) (hf : v.fbtbc = 0) (hl : v.lastFrag = true) (h₈ : 8 ≤ w.toNat)
    (h₃₁ : w.toNat < 2 ^ 31) : ∃ v', outputs (Inlet.call 1 (pour bs)) v [.skiprecord, .getlong] =
      some ([.bool true, .long (some (w.signExtend 64))], v') ∧ v'.unread = 0 ∧ v'.cells = toBytes w ∧ 4 ≤ v'.fbtbc := by
  have hskip : v.call 1 (pour bs) .skiprecord = some (.bool true, { v with lastFrag := false }) := by
    rw [Inlet.call, skiprecord_done (by rintro (hn | hn) <;> simp_all)]
    rfl
  have hh : toBytes w = toBytes (header false w.toNat) := by
    rw [header, if_neg (by simp), BitVec.ofNat_toNat, BitVec.setWidth_eq]
  let v₁ : Inlet Unit := { v with lastFrag := false, locals := fun n => v.locals (n + 1) }
  have h₁ : Poured bs w { v₁ with locals := fun n => v₁.locals (n + 1) } := ⟨h.unread, h.length, h.cells⟩
  have ho := openFragment_header (v := v₁) h₃₁ (fun _ => by omega) h₁.getInput hh
  have h₂ : Poured bs w ⟨toBytes w, v.unread, w.toNat, false, v.reader, fun n => v.locals (n + 2)⟩ :=
    h₁.again h.unread rfl
  have hb := getbytes_open (Nat.succ_ne_zero 3) (show v₁.fbtbc = 0 from hf) Bool.false_ne_true ho
  rw [h₂.getbytes (by dsimp only; omega)] at hb
  have hg := getlong_slow (v := { v with lastFrag := false }) (by dsimp only; omega) hb
  rw [if_pos rfl, overlay_word] at hg
  refine ⟨⟨toBytes w, v.unread, w.toNat - 4, false, v.reader, fun n => v.locals (n + 2)⟩,
    outputs_cons hskip (outputs_one ?_), h.unread, rfl, ?_⟩
  · rw [Inlet.call, hg]
  · dsimp only
    omega

/-- And then what it has next. -/
theorem opened_again (h : Poured bs w v) (hf : v.fbtbc = 0) (hl : v.lastFrag = true) (h₈ : 8 ≤ w.toNat)
    (h₃₁ : w.toNat < 2 ^ 31) : (outputs (Inlet.call 1 (pour bs)) v [.skiprecord, .getlong, .getlong]).map Prod.fst =
      some [.bool true, .long (some (w.signExtend 64)), .long (some (w.signExtend 64))] := by
  obtain ⟨v₁, ho, hu, hc, hf₁⟩ := h.opened hf hl h₈ h₃₁
  obtain ⟨v₂, hg, -⟩ := (h.again hu hc).getlong hf₁
  have hcall : v₁.call 1 (pour bs) .getlong = some (.long (some (w.signExtend 64)), v₂) := by
    rw [Inlet.call, hg]
  have hall := outputs_append ho (outputs_one hcall)
  exact congrArg (Option.map Prod.fst) hall

end Poured

end Inlet

/-! ## Sends that are not clear -/

/-- The word of four equal bytes. -/
def same (c : Byte) : Word := ofBytes c c c c

theorem load_same (c : Byte) (a : Int) : Heap.load (fun _ => c) a 4 = toBytes (same c) :=
  (toBytes_ofBytes c c c c).symm

section Seen

variable {s : RecStrm Unit Unit} {o : SendOp} {bs : List Byte} {c : Byte} {x : Int}

/-- The stream has not been read from, and every refill leaves the byte `c` in all cells. -/
structure Fresh (bs : List Byte) (c : Byte) (s : RecStrm Unit Unit) : Prop where
  placed : Placed s
  poured : s.inlet.Poured bs (same c)
  fbtbc : s.inlet.fbtbc = 0
  last : s.inlet.lastFrag = true

theorem same_toNat (hc : c = 1 ∨ c = 2) : 8 ≤ (same c).toNat ∧ (same c).toNat < 2 ^ 31 := by
  rcases hc with rfl | rfl
  · decide
  · decide

/-- The first word. -/
theorem Fresh.opened (h : Fresh bs c s) (hc : c = 1 ∨ c = 2) : ∃ s', outputs (duplexStep 1 (pour bs)) s
      [.inl .skiprecord, .inl .getlong] = some ([[.bool true], [.long (some ((same c).signExtend 64))]], s') ∧
    Placed s' ∧ Beside s s' ∧ s'.inlet.unread = 0 ∧ s'.inlet.cells = toBytes (same c) ∧ 4 ≤ s'.inlet.fbtbc := by
  obtain ⟨v, ho, hu, hcells, hf⟩ := h.poured.opened h.fbtbc h.last (same_toNat hc).1 (same_toNat hc).2
  obtain ⟨s', ho', rfl, hp, hb⟩ := exists_taken h.placed ho
  exact ⟨s', ho', hp, hb, hu, hcells, hf⟩

/-- A store in the window is seen by the receiver when its byte differs. -/
theorem Fresh.store_seen (h : Fresh [] c s) (hc : c = 1 ∨ c = 2) (hx : Heap.Within x s.inBase 4)
    (hs : ∃ w ∈ (s.outSide.effect o).stores, Heap.Within x w.1 w.2.length)
    (hne : s.mem.storeAll (s.outSide.effect o).stores x ≠ c) : ∃ w s', w ≠ same c ∧ Placed s' ∧
      outputs (duplexStep 1 (pour [])) s [.inl .skiprecord, .inl .getlong, .inr o, .inl .getlong] =
        some ([[.bool true], [.long (some ((same c).signExtend 64))], [], [.long (some (w.signExtend 64))]], s') := by
  obtain ⟨s₁, ho, hp, hb, hu, -, hf⟩ := h.opened hc
  obtain ⟨s₂, hd, -, hp₂, he⟩ := send_step (T := pour []) hp 1 o
  have hi := he.inSide
  simp only [RecStrm.inSide, Prod.mk.injEq] at hi
  obtain ⟨⟨-, hbase, hfin, hbnd⟩, hfb, -⟩ := hi
  obtain ⟨w, hw⟩ := exists_toBytes hp₂.sound.1
  have hpoured : s₂.inlet.Poured [] w := by
    refine ⟨?_, by simp, hw⟩
    rw [← hu, RecStrm.inlet, RecStrm.inlet, hfin, hbnd]
  have hf₂ : 4 ≤ s₂.inlet.fbtbc := by
    rwa [show s₂.inlet.fbtbc = s₁.inlet.fbtbc from congrArg Int.toNat hfb]
  obtain ⟨v, hg, -⟩ := hpoured.getlong hf₂
  have hcall : Inlet.call 1 (pour []) s₂.inlet .getlong = some (.long (some (w.signExtend 64)), v) := by
    rw [Inlet.call, hg]
  obtain ⟨s₃, ho₃, -, hp₃, -⟩ := exists_taken hp₂ (outputs_one hcall)
  refine ⟨w, s₃, ?_, hp₃, outputs_append ho (outputs_cons hd ho₃)⟩
  -- The cell at `x` has the byte that was stored.
  rintro rfl
  have hload : s₂.mem.load s₂.inBase 4 = Heap.load (fun _ => c) s₂.inBase 4 := hw.trans (load_same c _).symm
  have hmem : s₂.mem x = c := Heap.eq_of_load_eq hload (by rwa [he.inBase, hb.inBase])
  rw [he.mem, hb.outSide, Heap.storeAll_within hs] at hmem
  exact hne hmem

/-- A block that has a cell of the window shows what was received. -/
theorem Fresh.block_seen (h : Fresh bs c s) (hc : c = 1 ∨ c = 2) (hx : Heap.Within x s.inBase 4) (hm : s.mem x ≠ c)
    (hs : ¬ ∃ w ∈ (s.outSide.effect o).stores, Heap.Within x w.1 w.2.length) {a : Int}
    (hblock : (s.outSide.effect o).block = some a) (ha : Heap.Within x a 4) : ∃ rs s' u b b', b ≠ b' ∧ Placed s' ∧ Placed u ∧
      outputs (duplexStep 1 (pour bs)) s [.inl .skiprecord, .inl .getlong, .inr o] = some (rs, s') ∧
      sendStep 1 (pour bs) s o = some u ∧ s'.sent = s.sent ++ [b] ∧ u.sent = s.sent ++ [b'] := by
  obtain ⟨s₁, ho, hp, hb, -, hcells, -⟩ := h.opened hc
  obtain ⟨s₂, hd, -, hp₂, he⟩ := send_step (T := pour bs) hp 1 o
  obtain ⟨u, -, hr, hpu, heu⟩ := send_step (T := pour bs) h.placed 1 o
  have hno : ∀ w ∈ (s.outSide.effect o).stores, ¬ Heap.Within x w.1 w.2.length := fun w hw hxw => hs ⟨w, hw, hxw⟩
  have hmem₁ : s₁.mem x = c := by
    have hload : s₁.mem.load s₁.inBase 4 = Heap.load (fun _ => c) s₁.inBase 4 := hcells.trans (load_same c _).symm
    exact Heap.eq_of_load_eq hload (by rwa [hb.inBase])
  have hmem₂ : s₂.mem x = c := by
    rw [he.mem, hb.outSide, Heap.storeAll_of_not_within hno, hmem₁]
  have hmemu : u.mem x = s.mem x := by
    rw [heu.mem, Heap.storeAll_of_not_within hno]
  refine ⟨_, s₂, u, s₂.mem.load a 4, u.mem.load a 4, fun hl => ?_, hp₂, hpu, outputs_append ho (outputs_one hd), hr, ?_, ?_⟩
  · have hxx := Heap.eq_of_load_eq hl ha
    rw [hmem₂, hmemu] at hxx
    exact hm hxx.symm
  · rw [he.sent, hb.sent, hb.outSide, hblock]
    rfl
  · rw [heu.sent, hblock]
    rfl

end Seen

section Converse

variable {sendsize recvsize : Word} {buf : Int} {ps p₁ p₂ : List SendOp} {o : SendOp} {q : OutSide} {x : Int}

theorem uniform_placed (sendsize recvsize : Word) (buf : Int) (c : Byte) : Placed (uniform sendsize recvsize buf c) :=
  Placed.create sendsize recvsize buf (fun _ => c) () () fun _ => 0

theorem uniform_cells (sendsize recvsize : Word) (buf : Int) (c : Byte) :
    (uniform sendsize recvsize buf c).inlet.cells = toBytes (same c) :=
  load_same c _

/-- Clear sends leave the stream fresh. -/
theorem sent_fresh {bs : List Byte} {b c : Byte} {s : RecStrm Unit Unit}
    (hp : (uniform sendsize recvsize buf b).inlet.Poured bs (same c))
    (hs : Sent 1 (pour bs) (uniform sendsize recvsize buf b) p₁ s) (hc : SendsClear sendsize recvsize buf p₁) :
    Fresh bs c s ∧ s.inlet.cells = toBytes (same b) := by
  have hi := hs.inlet hc
  refine ⟨⟨hs.placed, by rwa [hi], by rw [hi]; rfl, by rw [hi]; rfl⟩, ?_⟩
  rw [hi, uniform_cells]

/-- The sending side after clear sends does not depend on the memory. -/
theorem sent_outSide {bs : List Byte} {b : Byte} {s : RecStrm Unit Unit}
    (hs : Sent 1 (pour bs) (uniform sendsize recvsize buf b) p₁ s)
    (hq : run OutSide.next (uniform sendsize recvsize buf 0).outSide p₁ = some q) : s.outSide = q :=
  Option.some.inj (hs.next.symm.trans hq)

/-- A send that stores in the window. -/
theorem store_disturbs (hc : SendsClear sendsize recvsize buf p₁)
    (hq : run OutSide.next (uniform sendsize recvsize buf 0).outSide p₁ = some q)
    (hx : Heap.Within x (uniform sendsize recvsize buf 0).inBase 4)
    (hs : ∃ w ∈ (q.effect o).stores, Heap.Within x w.1 w.2.length) :
    ¬ Undisturbed sendsize recvsize buf (p₁ ++ o :: p₂) := by
  intro h
  -- The memory is full of another byte than the send stores there.
  obtain ⟨c, hc₁₂, hne⟩ : ∃ c : Byte, (c = 1 ∨ c = 2) ∧ (Heap.storeAll (fun _ => 0) (q.effect o).stores x : Byte) ≠ c := by
    by_cases h₁ : (Heap.storeAll (fun _ => 0) (q.effect o).stores x : Byte) = 1
    · exact ⟨2, Or.inr rfl, by rw [h₁]; decide⟩
    · exact ⟨1, Or.inl rfl, h₁⟩
  have hpoured : (uniform sendsize recvsize buf c).inlet.Poured [] (same c) :=
    ⟨create_unread sendsize recvsize buf _ _ _ _, by simp, uniform_cells sendsize recvsize buf c⟩
  obtain ⟨s₁, hs₁⟩ := exists_sent 1 (pour []) (uniform_placed sendsize recvsize buf c) p₁
  obtain ⟨hfresh, -⟩ := sent_fresh hpoured hs₁ hc
  have hout := sent_outSide hs₁ hq
  rw [← hout] at hs hne
  have hx₁ : Heap.Within x s₁.inBase 4 := by
    rw [hs₁.inBase]
    exact hx
  obtain ⟨w, s₂, hw, hp₂, ho⟩ := hfresh.store_seen hc₁₂ hx₁ hs (by rwa [Heap.storeAll_within hs])
  obtain ⟨s₃, hs₃⟩ := exists_sent 1 (pour []) hp₂ p₂
  have hall := outputs_append hs₁.outputs (outputs_append ho hs₃.outputs)
  have halone := hpoured.opened_again rfl rfl (same_toNat hc₁₂).1 (same_toNat hc₁₂).2
  rw [← (uniform_placed sendsize recvsize buf c).results_inlet] at halone
  let os : List (TakeOp ⊕ SendOp) :=
    p₁.map .inr ++ ([.inl .skiprecord, .inl .getlong, .inr o, .inl .getlong] ++ p₂.map .inr)
  have hl : lefts os = [.skiprecord, .getlong, .getlong] := by simp [os]
  have hr : rights os = p₁ ++ o :: p₂ := by simp [os]
  obtain ⟨hsame, -⟩ := h Unit Unit (pour []) (fun _ => c) () () (fun _ => 0) 1 os hr
  rw [hl] at hsame
  have hres := (congrArg (Option.map fun r => r.1.flatten) hall).symm.trans (hsame.trans halone)
  have hw₀ : w.signExtend 64 = (same c).signExtend 64 := by simpa using hres
  have hset := congrArg (BitVec.setWidth 32) hw₀
  rw [setWidth_signExtend w (by decide), setWidth_signExtend (same c) (by decide)] at hset
  exact hw hset

/-- A send that stores nothing there and hands it to `writeit`. -/
theorem block_disturbs (hc : SendsClear sendsize recvsize buf p₁)
    (hq : run OutSide.next (uniform sendsize recvsize buf 0).outSide p₁ = some q)
    (hx : Heap.Within x (uniform sendsize recvsize buf 0).inBase 4)
    (hs : ¬ ∃ w ∈ (q.effect o).stores, Heap.Within x w.1 w.2.length) {a : Int} (hblock : (q.effect o).block = some a)
    (ha : Heap.Within x a 4) : ¬ Undisturbed sendsize recvsize buf (p₁ ++ o :: p₂) := by
  intro h
  -- What is received is not what the memory is full of.
  let T := pour (toBytes (same 1))
  have hpoured : (uniform sendsize recvsize buf 0).inlet.Poured (toBytes (same 1)) (same 1) := by
    refine ⟨create_unread sendsize recvsize buf _ _ _ _, Nat.le_refl 4, ?_⟩
    rw [uniform_cells, length_toBytes, ← length_toBytes (same 0), List.drop_length, List.append_nil]
  obtain ⟨s₁, hs₁⟩ := exists_sent 1 T (uniform_placed sendsize recvsize buf 0) p₁
  obtain ⟨hfresh, hcells⟩ := sent_fresh hpoured hs₁ hc
  have hout := sent_outSide hs₁ hq
  rw [← hout] at hs hblock
  have hx₁ : Heap.Within x s₁.inBase 4 := by
    rw [hs₁.inBase]
    exact hx
  have hm : s₁.mem x ≠ 1 := by
    have hload : s₁.mem.load s₁.inBase 4 = Heap.load (fun _ => 0) s₁.inBase 4 := hcells.trans (load_same 0 _).symm
    rw [Heap.eq_of_load_eq hload hx₁]
    decide
  obtain ⟨rs, s₂, u₂, b, b', hne, hp₂, hpu, ho, hu, hb, hb'⟩ :=
    hfresh.block_seen (Or.inl rfl) hx₁ hm hs hblock ha
  obtain ⟨s₃, hs₃⟩ := exists_sent 1 T hp₂ p₂
  obtain ⟨u₃, hu₃⟩ := exists_sent 1 T hpu p₂
  let os : List (TakeOp ⊕ SendOp) := p₁.map .inr ++ ([.inl .skiprecord, .inl .getlong, .inr o] ++ p₂.map .inr)
  have hr : rights os = p₁ ++ o :: p₂ := by simp [os]
  obtain ⟨-, hsame⟩ := h Unit Unit T (fun _ => 0) () () (fun _ => 0) 1 os hr
  obtain ⟨u, hrun, hsent⟩ := hsame _ s₃ (outputs_append hs₁.outputs (outputs_append ho hs₃.outputs))
  have hrun' : run (sendStep 1 T) (uniform sendsize recvsize buf 0) (p₁ ++ o :: p₂) = some u₃ := by
    rw [run_append, hs₁.run, Option.bind_some, run_cons hu, hu₃.run]
  obtain rfl : u₃ = u := Option.some.inj (hrun'.symm.trans hrun)
  -- The blocks after the same ones differ.
  obtain ⟨l, hl⟩ := hs₃.sent
  obtain ⟨l', hl'⟩ := hu₃.sent
  rw [← hl, ← hl', hb, hb', List.append_assoc, List.append_assoc, List.append_cancel_left_eq] at hsent
  exact hne (List.cons.inj hsent).1.symm

/-- The first send that is not clear disturbs a receiver or is disturbed by it. -/
theorem sendsClear_of_undisturbed (h : Undisturbed sendsize recvsize buf ps) : SendsClear sendsize recvsize buf ps := by
  by_contra hn
  obtain ⟨p₁, o, p₂, q, rfl, hc, hq, ho⟩ := exists_of_not_throughout hn
  unfold Clear at ho
  push Not at ho
  obtain ⟨i, hi, ht⟩ := ho
  have hx : Heap.Within ((uniform sendsize recvsize buf 0).inBase + (i : Int)) (uniform sendsize recvsize buf 0).inBase 4 :=
    ⟨by omega, by omega⟩
  by_cases hs : ∃ w ∈ (q.effect o).stores,
      Heap.Within ((uniform sendsize recvsize buf 0).inBase + (i : Int)) w.1 w.2.length
  · exact store_disturbs hc hq hx hs h
  · obtain ⟨a, hblock, ha⟩ := ht.resolve_left hs
    exact block_disturbs hc hq hx hs hblock ha h

end Converse

/-- The two directions do not disturb each other exactly as long as the sends are clear of the window. -/
theorem undisturbed_iff (sendsize recvsize : Word) (buf : Int) (ps : List SendOp) :
    Undisturbed sendsize recvsize buf ps ↔ SendsClear sendsize recvsize buf ps := by
  constructor
  · exact sendsClear_of_undisturbed
  · rintro h ρ ω T mem reader writer locals fuel os rfl
    have hp := Placed.create sendsize recvsize buf mem reader writer locals
    exact ⟨outputs_takes hp fuel os h, fun rs s' hr => run_sends hp h hr⟩

/-- Eighty bytes in an output area of 92. -/
def longPut : SendOp := .put (.putbytes (List.replicate 80 7) (by decide))

theorem longPut_disturbs : ¬ Undisturbed 100 0 0 [longPut] := by
  intro h
  have hc := sendsClear_of_undisturbed h
  exact absurd hc.1 (by decide)

end Cornflakes.Flexrpc

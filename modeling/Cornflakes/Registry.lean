import Mathlib.Data.List.Induction
import Cornflakes.Flexrpc.Msg
import Cornflakes.Flexrpc.Xdr

/-!
# The registry of services (`cornflake.c`)

- `cornflakeRegister` and `cornflakeGetSchema`, over the static node `rpc_registry` and the nodes that hang on it;
- `registerAll`, a sequence of registrations from the empty registry: once the static node is taken, no later
  registration is linked to it (`registerAll_taken`, `getSchema_registerAll`);
- what the registry should be, a map from keys to schemas (`FaithfulMap`): it is one exactly as long as there is at
  most one registration (`faithfulMap_iff`);
- what the first registration should be, kept (`FirstKept`): it is kept exactly when its version is not `0`, the
  value by which an empty static node is recognised (`firstKept_iff`).
-/

set_option autoImplicit false

namespace Cornflakes

open Wire Flexrpc

variable {σ α : Type}

/-- `struct cf_registry` without its `next` field. `dispatch` is an address that nothing calls. -/
structure CfRegistry (σ α : Type) where
  prog : ULong
  vers : ULong
  proc : ULong
  cfCallSchema : Option (FlexxdrProc σ α)
  cfReplySchema : Option (FlexxdrProc σ α)
  dispatch : ULong

/-- The static node `rpc_registry` and the nodes reached from it through `next`, in order; `loose` are the nodes that
were allocated and filled and that no `next` field points to. -/
structure Registry (σ α : Type) where
  rpcRegistry : CfRegistry σ α
  next : List (CfRegistry σ α)
  loose : List (CfRegistry σ α)

/-- Static storage starts out as zeros. -/
def Registry.empty : Registry σ α := ⟨⟨0, 0, 0, none, none, 0⟩, [], []⟩

def cornflakeRegister (R : Registry σ α) (prog vers proc : ULong)
    (cfCallSchema cfReplySchema : Option (FlexxdrProc σ α)) (dispatch : ULong) : Bool × Registry σ α :=
  let reg : CfRegistry σ α := ⟨prog, vers, proc, cfCallSchema, cfReplySchema, dispatch⟩
  if R.rpcRegistry.vers = 0 then (true, { R with rpcRegistry := reg })
  else
    -- The walk along `next` stops at NULL and keeps no node to link the new one to.
    (true, { R with loose := R.loose ++ [reg] })

/-- The loop of `cornflake_get_schema` from node `reg`, with the nodes after it. -/
def cornflakeFind (prog vers proc : ULong) : CfRegistry σ α → List (CfRegistry σ α) → Option (CfRegistry σ α)
  | reg, next =>
    if reg.vers ≠ vers ∨ reg.prog ≠ prog ∨ reg.proc ≠ proc then
      match next with
      | [] => none
      | reg' :: next' => cornflakeFind prog vers proc reg' next'
    else some reg

def cornflakeGetSchema (R : Registry σ α) (prog vers proc : ULong) (flexrpcDirection : Word) :
    Option (FlexxdrProc σ α) :=
  if R.rpcRegistry.vers = 0 then none
  else
    match cornflakeFind prog vers proc R.rpcRegistry R.next with
    | none => none
    | some reg =>
      if flexrpcDirection = MsgType.call then reg.cfCallSchema
      else if flexrpcDirection = MsgType.reply then reg.cfReplySchema
      else none

/-! ## Sequences of registrations -/

/-- One registration, with the arguments of `e`. -/
def Registry.register (R : Registry σ α) (e : CfRegistry σ α) : Registry σ α :=
  (cornflakeRegister R e.prog e.vers e.proc e.cfCallSchema e.cfReplySchema e.dispatch).2

/-- The registry after a sequence of registrations. -/
def registerAll (es : List (CfRegistry σ α)) : Registry σ α := es.foldl Registry.register Registry.empty

/-- `prog`, `vers` and `proc`. -/
def CfRegistry.key (e : CfRegistry σ α) : ULong × ULong × ULong := (e.prog, e.vers, e.proc)

/-- The nodes that a lookup can reach. -/
def Registry.linked (R : Registry σ α) : List (CfRegistry σ α) := R.rpcRegistry :: R.next

/-- The test by which both functions tell that the static node is empty. -/
def Registry.headEmpty (R : Registry σ α) : Prop := R.rpcRegistry.vers = 0

theorem headEmpty_empty : (Registry.empty : Registry σ α).headEmpty := by
  show (0 : ULong) = 0
  rfl

theorem register_empty {R : Registry σ α} (h : R.headEmpty) (e : CfRegistry σ α) :
    R.register e = { R with rpcRegistry := e } := by
  simp only [Registry.register, cornflakeRegister, if_pos (show R.rpcRegistry.vers = 0 from h)]

theorem register_taken {R : Registry σ α} (h : ¬ R.headEmpty) (e : CfRegistry σ α) :
    R.register e = { R with loose := R.loose ++ [e] } := by
  simp only [Registry.register, cornflakeRegister, if_neg (show ¬ R.rpcRegistry.vers = 0 from h)]

/-- Once the static node is taken, registrations only add loose nodes. -/
theorem foldl_register_taken {R : Registry σ α} (h : ¬ R.headEmpty) (es : List (CfRegistry σ α)) :
    es.foldl Registry.register R = { R with loose := R.loose ++ es } := by
  induction es generalizing R with
  | nil => simp
  | cons e es ih =>
    rw [List.foldl_cons, register_taken h, ih (R := { R with loose := R.loose ++ [e] }) h]
    simp only [List.append_assoc, List.singleton_append]

/-- The registry that a first registration with a nonzero version leads to. -/
theorem registerAll_taken {e : CfRegistry σ α} (h : e.vers ≠ 0) (es : List (CfRegistry σ α)) :
    registerAll (e :: es) = ⟨e, [], es⟩ := by
  have hr : (Registry.empty : Registry σ α).register e = ⟨e, [], []⟩ := register_empty headEmpty_empty e
  rw [registerAll, List.foldl_cons, hr, foldl_register_taken (R := ⟨e, [], []⟩) h]
  rfl

/-! ## Lookups -/

/-- The schema of a node for a direction. -/
def CfRegistry.schema (e : CfRegistry σ α) (flexrpcDirection : Word) : Option (FlexxdrProc σ α) :=
  if flexrpcDirection = MsgType.call then e.cfCallSchema
  else if flexrpcDirection = MsgType.reply then e.cfReplySchema
  else none

/-- A registry of one node finds that node under its key, and nothing else. -/
theorem getSchema_single {e : CfRegistry σ α} (h : e.vers ≠ 0) (ls : List (CfRegistry σ α)) (prog vers proc : ULong)
    (d : Word) :
    cornflakeGetSchema ⟨e, [], ls⟩ prog vers proc d = if e.key = (prog, vers, proc) then e.schema d else none := by
  have hk : e.key = (prog, vers, proc) ↔ ¬ (e.vers ≠ vers ∨ e.prog ≠ prog ∨ e.proc ≠ proc) := by
    simp only [CfRegistry.key, Prod.mk.injEq]
    grind
  unfold cornflakeGetSchema cornflakeFind
  rw [if_neg h]
  by_cases hm : e.vers ≠ vers ∨ e.prog ≠ prog ∨ e.proc ≠ proc
  · rw [if_pos hm, if_neg (fun e' => hk.mp e' hm)]
  · rw [if_neg hm, if_pos (hk.mpr hm)]
    rfl

theorem getSchema_registerAll {e : CfRegistry σ α} (h : e.vers ≠ 0) (es : List (CfRegistry σ α))
    (prog vers proc : ULong) (d : Word) :
    cornflakeGetSchema (registerAll (e :: es)) prog vers proc d =
      if e.key = (prog, vers, proc) then e.schema d else none := by
  rw [registerAll_taken h, getSchema_single h]

theorem getSchema_headEmpty {R : Registry σ α} (h : R.headEmpty) (prog vers proc : ULong) (d : Word) :
    cornflakeGetSchema R prog vers proc d = none := if_pos h

/-- Every sequence of registrations leaves the static node empty or with one of them, and no node behind it. -/
theorem registerAll_head (es : List (CfRegistry σ α)) :
    (registerAll es).next = [] ∧ ((registerAll es).headEmpty ∨ (registerAll es).rpcRegistry ∈ es) := by
  induction es using List.reverseRecOn with
  | nil => exact ⟨rfl, Or.inl headEmpty_empty⟩
  | append_singleton es e ih =>
    obtain ⟨hn, hor⟩ := ih
    have hs : registerAll (es ++ [e]) = (registerAll es).register e := by
      rw [registerAll, List.foldl_append]
      rfl
    rw [hs]
    by_cases he : (registerAll es).headEmpty
    · rw [register_empty he]
      exact ⟨hn, Or.inr (by simp)⟩
    · rw [register_taken he]
      exact ⟨hn, Or.inr (List.mem_append_left _ (hor.resolve_left he))⟩

/-- A key that finds a schema was registered. -/
theorem registered_of_getSchema {es : List (CfRegistry σ α)} {prog vers proc : ULong} {d : Word}
    (h : cornflakeGetSchema (registerAll es) prog vers proc d ≠ none) : ∃ e ∈ es, e.key = (prog, vers, proc) := by
  obtain ⟨hn, hor⟩ := registerAll_head es
  by_cases he : (registerAll es).headEmpty
  · exact absurd (getSchema_headEmpty he prog vers proc d) h
  · refine ⟨_, hor.resolve_left he, ?_⟩
    have hr : registerAll es = ⟨(registerAll es).rpcRegistry, [], (registerAll es).loose⟩ := by rw [← hn]
    rw [hr, getSchema_single he] at h
    by_contra hk
    exact h (if_neg hk)

/-! ## The registry as a map -/

/-- After the registrations `es` the registry is the map that they describe: every key of `es` finds the schemas it was
registered with, every other key finds none, and every registration is in a node that lookups reach. -/
structure FaithfulMap (es : List (CfRegistry σ α)) : Prop where
  registered : ∀ e ∈ es, ∀ d, cornflakeGetSchema (registerAll es) e.prog e.vers e.proc d = e.schema d
  others : ∀ prog vers proc, (∀ e ∈ es, e.key ≠ (prog, vers, proc)) →
    ∀ d, cornflakeGetSchema (registerAll es) prog vers proc d = none
  kept : ∀ e ∈ es, e ∈ (registerAll es).linked

theorem faithfulMap_nil : FaithfulMap ([] : List (CfRegistry σ α)) where
  registered := fun e he => by cases he
  others := fun prog vers proc _ d => getSchema_headEmpty headEmpty_empty prog vers proc d
  kept := fun e he => by cases he

theorem faithfulMap_one {e : CfRegistry σ α} (h : e.vers ≠ 0) : FaithfulMap [e] where
  registered := by
    intro e' he d
    rw [List.mem_singleton.mp he, getSchema_registerAll h]
    exact if_pos rfl
  others := by
    intro prog vers proc hk d
    rw [getSchema_registerAll h]
    exact if_neg (hk e List.mem_cons_self)
  kept := by
    intro e' he
    rw [List.mem_singleton.mp he, registerAll_taken h]
    exact List.mem_cons_self

/-- A second registration is lost. -/
theorem not_faithfulMap {e e' : CfRegistry σ α} {es : List (CfRegistry σ α)} (h : e.vers ≠ 0) (hk : e.key ≠ e'.key) :
    ¬ FaithfulMap (e :: e' :: es) := by
  intro hf
  have hm := hf.kept e' (by simp)
  rw [registerAll_taken h] at hm
  have he : e' = e := List.mem_singleton.mp hm
  exact hk (by rw [he])

/-- **The registry is a faithful map exactly as long as it has at most one registration.** -/
theorem faithfulMap_iff (es : List (CfRegistry σ α)) (hk : es.Pairwise fun e e' => e.key ≠ e'.key)
    (hv : ∀ e ∈ es, e.vers ≠ 0) : FaithfulMap es ↔ es.length ≤ 1 := by
  match es with
  | [] => exact ⟨fun _ => by simp, fun _ => faithfulMap_nil⟩
  | [e] => exact ⟨fun _ => by simp, fun _ => faithfulMap_one (hv e (by simp))⟩
  | e :: e' :: es =>
    have hne : e.key ≠ e'.key := (List.pairwise_cons.mp hk).1 e' (by simp)
    constructor
    · intro hf
      exact absurd hf (not_faithfulMap (hv e (by simp)) hne)
    · intro hl
      simp at hl

/-- Two services with different keys, the second with schemas of its own. -/
def twoServices : List (CfRegistry Unit Unit) :=
  [⟨1, 1, 1, some (voidProc 4096), none, 0⟩,
    ⟨1, 1, 2, some (voidProc 4112), some (voidProc 4128), 0⟩]

theorem faithfulMap_iff_twoServices : FaithfulMap twoServices ↔ twoServices.length ≤ 1 :=
  faithfulMap_iff twoServices (by simp [twoServices, CfRegistry.key]) (by simp [twoServices])

/-- The second of the two services is not found. -/
theorem second_service_lost : twoServices.Pairwise (fun e e' => e.key ≠ e'.key) ∧ (∀ e ∈ twoServices, e.vers ≠ 0) ∧
    ¬ FaithfulMap twoServices := by
  refine ⟨by simp [twoServices, CfRegistry.key], by simp [twoServices], ?_⟩
  intro hf
  have hs := hf.registered ⟨1, 1, 2, some (voidProc 4112), some (voidProc 4128), 0⟩ (by simp [twoServices]) MsgType.call
  cases hs

/-! ## The first registration -/

/-- In every state after the first registration of `e :: es`, the key of `e` finds the schemas of `e`, and the static
node does not count as empty. -/
def FirstKept (e : CfRegistry σ α) (es : List (CfRegistry σ α)) : Prop :=
  ∀ n, (∀ d, cornflakeGetSchema (registerAll (e :: es.take n)) e.prog e.vers e.proc d = e.schema d) ∧
    ¬ (registerAll (e :: es.take n)).headEmpty

/-- **The first registration is kept exactly when its version is not `0`.** -/
theorem firstKept_iff (e : CfRegistry σ α) (es : List (CfRegistry σ α)) : FirstKept e es ↔ e.vers ≠ 0 := by
  constructor
  · intro hf hv
    have hr : registerAll [e] = ⟨e, [], []⟩ := register_empty headEmpty_empty e
    have h0 := (hf 0).2
    rw [List.take_zero, hr] at h0
    exact h0 hv
  · intro hv n
    constructor
    · intro d
      rw [getSchema_registerAll hv]
      exact if_pos rfl
    · rw [registerAll_taken hv]
      exact hv

/-- A service of version `0` is not found. -/
theorem version_zero_lost :
    ¬ FirstKept (⟨1, 0, 1, some (voidProc 4096), none, 0⟩ : CfRegistry Unit Unit) [] := by
  intro hf
  have hs := (hf 0).1 MsgType.call
  cases hs

end Cornflakes

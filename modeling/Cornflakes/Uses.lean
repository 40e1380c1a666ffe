import Cornflakes.Wire.Run
import Cornflakes.Cornflake

/-!
# A process that registers services and handles messages

The functions of `cornflake.c` in any order over the one registry of the process, which ends where one of them faults.
The process gives the answers of one that has a cell for a single service: the first registration whose version is not
`0` goes into the cell and stays there, all others are lost, and those after it leave a node behind that nothing
reaches (`uses_serve`).
-/

set_option autoImplicit false

namespace Cornflakes

open Wire Flexrpc

variable {σ α : Type}

/-- A call of a function of `cornflake.c` by the process. -/
inductive Use (σ α : Type)
  | register (e : CfRegistry σ α)
  | getSchema (prog vers proc : ULong) (flexrpcDirection : Word)
  | serialize (X : Flexxdr σ) (cf : Cflake σ α)
  | deserialize (X : Flexxdr σ) (cf : Cflake σ α)

/-- What the function returns, and what it leaves behind its pointers. -/
inductive Answer (σ α : Type)
  | registered (ok : Bool)
  | schema (schema : Option (FlexxdrProc σ α))
  | message (o : Outcome σ (Cflake σ α))

/-- One call over the registry. There is no answer after a fault. -/
def Registry.use (R : Registry σ α) : Use σ α → Option (Answer σ α × Registry σ α)
  | .register e =>
    let (ok, R) := cornflakeRegister R e.prog e.vers e.proc e.cfCallSchema e.cfReplySchema e.dispatch
    some (.registered ok, R)
  | .getSchema prog vers proc d => some (.schema (cornflakeGetSchema R prog vers proc d), R)
  | .serialize X cf => (cornflakeSerialize R X cf).toOption.map fun o => (.message o, R)
  | .deserialize X cf => (cornflakeDeserialize R X cf).toOption.map fun o => (.message o, R)

/-! ## A cell for one service -/

/-- The registry that holds the service of a cell and nothing else. -/
def only : Option (CfRegistry σ α) → Registry σ α
  | none => Registry.empty
  | some e => ⟨e, [], []⟩

/-- The cell after a registration. -/
def occupy (cell : Option (CfRegistry σ α)) (e : CfRegistry σ α) : Option (CfRegistry σ α) :=
  cell.or (if e.vers = 0 then none else some e)

/-- The schema in the cell for a key and a direction. -/
def cellSchema (cell : Option (CfRegistry σ α)) (prog vers proc : ULong) (flexrpcDirection : Word) :
    Option (FlexxdrProc σ α) :=
  cell.bind fun e => if e.key = (prog, vers, proc) then e.schema flexrpcDirection else none

/-- One call over the cell. -/
def serve (cell : Option (CfRegistry σ α)) : Use σ α → Option (Answer σ α × Option (CfRegistry σ α))
  | .register e => some (.registered true, occupy cell e)
  | .getSchema prog vers proc d => some (.schema (cellSchema cell prog vers proc d), cell)
  | .serialize X cf => (cornflakeSerialize (only cell) X cf).toOption.map fun o => (.message o, cell)
  | .deserialize X cf => (cornflakeDeserialize (only cell) X cf).toOption.map fun o => (.message o, cell)

/-! ## The registry as a cell -/

/-- The service in the static node, if that does not count as empty. -/
def Registry.service (R : Registry σ α) : Option (CfRegistry σ α) :=
  if R.rpcRegistry.vers = 0 then none else some R.rpcRegistry

section Cell

variable {R A B : Registry σ α}

theorem service_headEmpty (h : R.headEmpty) : R.service = none := if_pos h

theorem service_taken (h : ¬ R.headEmpty) : R.service = some R.rpcRegistry := if_neg h

theorem getSchema_service (hn : R.next = []) (prog vers proc : ULong) (d : Word) :
    cornflakeGetSchema R prog vers proc d = cellSchema R.service prog vers proc d := by
  by_cases h : R.headEmpty
  · rw [getSchema_headEmpty h, service_headEmpty h]
    rfl
  · have hr : R = ⟨R.rpcRegistry, [], R.loose⟩ := by rw [← hn]
    rw [service_taken h, hr, getSchema_single h]
    rfl

theorem getSchema_only (hn : R.next = []) (prog vers proc : ULong) (d : Word) :
    cornflakeGetSchema (only R.service) prog vers proc d = cornflakeGetSchema R prog vers proc d := by
  rw [getSchema_service hn]
  by_cases h : R.headEmpty
  · rw [service_headEmpty h]
    exact getSchema_headEmpty headEmpty_empty prog vers proc d
  · rw [service_taken h]
    exact getSchema_single h [] prog vers proc d

/-- A message depends on the registry through lookups alone. -/
theorem serialize_congr (h : ∀ prog vers proc d, cornflakeGetSchema A prog vers proc d = cornflakeGetSchema B prog vers proc d)
    (X : Flexxdr σ) (cf : Cflake σ α) : cornflakeSerialize A X cf = cornflakeSerialize B X cf := by
  simp only [cornflakeSerialize, serializeCall, h]

theorem deserialize_congr (h : ∀ prog vers proc d, cornflakeGetSchema A prog vers proc d = cornflakeGetSchema B prog vers proc d)
    (X : Flexxdr σ) (cf : Cflake σ α) : cornflakeDeserialize A X cf = cornflakeDeserialize B X cf := by
  simp only [cornflakeDeserialize, selectSchema, h]

/-- A registration goes into the cell if that is empty. -/
theorem register_service (hn : R.next = []) (e : CfRegistry σ α) :
    (R.register e).service = occupy R.service e ∧ (R.register e).next = [] := by
  by_cases h : R.headEmpty
  · rw [register_empty h, service_headEmpty h]
    exact ⟨rfl, hn⟩
  · rw [register_taken h, service_taken h]
    exact ⟨service_taken h, hn⟩

theorem use_register (R : Registry σ α) (e : CfRegistry σ α) :
    R.use (.register e) = some (.registered true, R.register e) := by
  by_cases h : R.rpcRegistry.vers = 0
  · simp only [Registry.use, Registry.register, cornflakeRegister, if_pos h]
  · simp only [Registry.use, Registry.register, cornflakeRegister, if_neg h]

/-- One call over the registry is one call over the cell. -/
theorem use_serve (u : Use σ α) (hn : R.next = []) :
    serve R.service u = (R.use u).map (fun r => (r.1, r.2.service)) ∧ ∀ r, R.use u = some r → r.2.next = [] := by
  cases u with
  | register e =>
    obtain ⟨hs, hk⟩ := register_service hn e
    rw [use_register]
    refine ⟨?_, ?_⟩
    · simp only [serve, Option.map_some, hs]
    · intro r hr
      cases hr
      exact hk
  | getSchema prog vers proc d =>
    refine ⟨?_, ?_⟩
    · simp only [serve, Registry.use, Option.map_some, getSchema_service hn]
    · intro r hr
      cases hr
      exact hn
  | serialize X cf =>
    refine ⟨?_, ?_⟩
    · simp only [serve, Registry.use, serialize_congr (getSchema_only hn), Option.map_map]
      rfl
    · intro r hr
      obtain ⟨o, -, rfl⟩ := Option.map_eq_some_iff.mp hr
      exact hn
  | deserialize X cf =>
    refine ⟨?_, ?_⟩
    · simp only [serve, Registry.use, deserialize_congr (getSchema_only hn), Option.map_map]
      rfl
    · intro r hr
      obtain ⟨o, -, rfl⟩ := Option.map_eq_some_iff.mp hr
      exact hn

end Cell

/-! ## Whole runs -/

/-- The registrations among the calls. -/
def registrations (us : List (Use σ α)) : List (CfRegistry σ α) :=
  us.filterMap fun u =>
    match u with
    | .register e => some e
    | _ => none

theorem use_after {R : Registry σ α} {u : Use σ α} {r : Answer σ α × Registry σ α} (h : R.use u = some r) :
    r.2 = (registrations [u]).foldl Registry.register R := by
  cases u with
  | register e =>
    rw [use_register] at h
    cases h
    rfl
  | getSchema prog vers proc d =>
    cases h
    rfl
  | serialize X cf =>
    obtain ⟨o, -, rfl⟩ := Option.map_eq_some_iff.mp h
    rfl
  | deserialize X cf =>
    obtain ⟨o, -, rfl⟩ := Option.map_eq_some_iff.mp h
    rfl

/-- The registry depends on the registrations among the calls alone. -/
theorem registry_after {R R' : Registry σ α} {us : List (Use σ α)} {as : List (Answer σ α)}
    (h : outputs Registry.use R us = some (as, R')) : R' = (registrations us).foldl Registry.register R := by
  induction us generalizing R as with
  | nil =>
    cases h
    rfl
  | cons u us ih =>
    simp only [outputs, Option.bind_eq_some_iff, Option.map_eq_some_iff] at h
    obtain ⟨r, hr, r', hr', he⟩ := h
    cases he
    have hc : registrations (u :: us) = registrations [u] ++ registrations us := List.filterMap_append (l := [u])
    rw [ih hr', use_after hr, hc, List.foldl_append]

/-- What a sequence of registrations leaves in the static node, and besides it. -/
theorem foldl_register_empty {R : Registry σ α} (h : R.headEmpty) (es : List (CfRegistry σ α)) :
    (es.foldl Registry.register R).service = es.find? (fun e => e.vers ≠ 0) ∧
      (es.foldl Registry.register R).loose = R.loose ++ (es.dropWhile fun e => e.vers = 0).tail := by
  induction es generalizing R with
  | nil => exact ⟨service_headEmpty h, (List.append_nil _).symm⟩
  | cons e es ih =>
    rw [List.foldl_cons, register_empty h]
    by_cases he : e.vers = 0
    · obtain ⟨hs, hl⟩ := ih (R := { R with rpcRegistry := e }) he
      rw [hs, hl]
      simp [he]
    · rw [foldl_register_taken (R := { R with rpcRegistry := e }) he]
      have hf : (e :: es).find? (fun e => e.vers ≠ 0) = some e := List.find?_cons_of_pos (decide_eq_true he)
      have hd : (e :: es).dropWhile (fun e => e.vers = 0) = e :: es :=
        List.dropWhile_cons_of_neg fun h0 => he (of_decide_eq_true h0)
      rw [hf, hd]
      exact ⟨service_taken he, rfl⟩

/-- **A process that uses the registry in any order gives the answers of one that has a cell for one service.** The
cell holds the first registration whose version is not `0`, and the later ones are in the nodes that are lost. -/
theorem uses_serve (us : List (Use σ α)) :
    outputs serve none us = (outputs Registry.use Registry.empty us).map (fun r => (r.1, r.2.service)) ∧
      ∀ as R, outputs Registry.use Registry.empty us = some (as, R) →
        R.service = (registrations us).find? (fun e => e.vers ≠ 0) ∧
          R.loose = ((registrations us).dropWhile fun e => e.vers = 0).tail := by
  refine ⟨?_, ?_⟩
  · have hs : (Registry.empty : Registry σ α).service = none := service_headEmpty headEmpty_empty
    rw [← hs]
    exact outputs_map (fun (R : Registry σ α) u (hn : R.next = []) => use_serve u hn) rfl us
  · intro as R h
    rw [registry_after h]
    exact foldl_register_empty headEmpty_empty _

end Cornflakes

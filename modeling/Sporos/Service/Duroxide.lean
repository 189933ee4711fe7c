import Sporos.Lib.Table

/-! # The workflow engine

What the service sees of Duroxide through its client: the start of an instance, the inspection of a
start, and the status of an instance. The identity of a root instance is reserved with the queue
entry of its start, once and for all; until the first turn is in the history, the instance has no
status. -/

namespace Sporos.Service.Duroxide

open Sporos.Lib.Table

/-- `ErrorDetails`: an application error, which may be a cancellation, or another one. -/
inductive ErrorDetails where
  | application (cancelled : Bool) (message : String)
  | other (category : String)
  deriving DecidableEq, Repr

/-- The error is a cancellation. -/
def ErrorDetails.isCancelled : ErrorDetails → Bool
  | .application cancelled _ => cancelled
  | .other _ => false

/-- What the engine says of an instance. -/
inductive OrchestrationStatus where
  | notFound
  | running
  | completed (output : String)
  | failed (details : ErrorDetails)
  deriving DecidableEq, Repr

/-- A root instance that has been started. -/
structure Instance where
  instanceId : String
  name : String
  version : String
  input : String
  status : OrchestrationStatus
  deriving DecidableEq, Repr

/-- The instances of the engine. -/
abbrev Engine := List Instance

/-- The identity of the instance is reserved. -/
def Reserved (engine : Engine) (instanceId : String) : Prop :=
  ∃ i ∈ engine, i.instanceId = instanceId

instance (engine : Engine) (instanceId : String) : Decidable (Reserved engine instanceId) :=
  inferInstanceAs (Decidable (∃ i ∈ engine, i.instanceId = instanceId))

/-- What becomes of a start request on its way: it is stored and acknowledged, it fails before it is
stored, or it is stored and the acknowledgement is lost. -/
inductive Delivery where
  | acknowledged
  | lost (retryable : Bool)
  | unacknowledged (retryable : Bool)
  deriving DecidableEq, Repr

/-- `start_orchestration_versioned`: the engine after the call and, if the call fails, whether the
error is retryable. A second start of an instance is a permanent error. -/
def startOrchestration (engine : Engine) (instanceId name version input : String)
    (delivery : Delivery) : Engine × Option Bool :=
  match delivery with
  | .lost retryable => (engine, some retryable)
  | .acknowledged =>
    if Reserved engine instanceId then (engine, some false)
    else (engine ++ [⟨instanceId, name, version, input, .notFound⟩], none)
  | .unacknowledged retryable =>
    if Reserved engine instanceId then (engine, some false)
    else (engine ++ [⟨instanceId, name, version, input, .notFound⟩], some retryable)

/-- How the start of an instance compares with one that is there already. -/
inductive RootOrchestrationStart where
  | missing
  | same
  | collision
  deriving DecidableEq, Repr

/-- `inspect_root_orchestration_start`. -/
def inspectRootOrchestrationStart (engine : Engine) (instanceId name version input : String) :
    RootOrchestrationStart :=
  match lookup Instance.instanceId engine instanceId with
  | none => .missing
  | some i => if i.name = name ∧ i.version = version ∧ i.input = input then .same else .collision

/-- `get_orchestration_status`. -/
def getOrchestrationStatus (engine : Engine) (instanceId : String) : OrchestrationStatus :=
  match lookup Instance.instanceId engine instanceId with
  | none => .notFound
  | some i => i.status

/-- The engine after an instance has made progress. -/
def progress (engine : Engine) (instanceId : String) (status : OrchestrationStatus) : Engine :=
  updateKey Instance.instanceId engine instanceId fun i => { i with status }

theorem reserved_startOrchestration {engine : Engine} {instanceId name version input : String}
    {delivery : Delivery} {other : String} (h : Reserved engine other) :
    Reserved (startOrchestration engine instanceId name version input delivery).1 other := by
  obtain ⟨i, hi, hid⟩ := h
  cases delivery with
  | lost retryable => exact ⟨i, hi, hid⟩
  | acknowledged =>
    simp only [startOrchestration]
    split_ifs
    · exact ⟨i, hi, hid⟩
    · exact ⟨i, List.mem_append_left _ hi, hid⟩
  | unacknowledged retryable =>
    simp only [startOrchestration]
    split_ifs
    · exact ⟨i, hi, hid⟩
    · exact ⟨i, List.mem_append_left _ hi, hid⟩

/-- A start reserves no other instance than its own. -/
theorem eq_of_reserved_startOrchestration {engine : Engine} {instanceId name version input : String}
    {delivery : Delivery} {other : String} (hfree : ¬ Reserved engine other)
    (h : Reserved (startOrchestration engine instanceId name version input delivery).1 other) :
    other = instanceId := by
  have hnew : ∀ i ∈ engine ++ [(⟨instanceId, name, version, input, .notFound⟩ : Instance)],
      i.instanceId = other → other = instanceId := by
    intro i hi hid
    rcases List.mem_append.mp hi with hold | hlast
    · exact absurd ⟨i, hold, hid⟩ hfree
    · rw [List.mem_singleton] at hlast
      rw [← hid, hlast]
  cases delivery with
  | lost retryable => exact absurd h hfree
  | acknowledged =>
    simp only [startOrchestration] at h
    split_ifs at h
    · exact absurd h hfree
    · obtain ⟨i, hi, hid⟩ := h
      exact hnew i hi hid
  | unacknowledged retryable =>
    simp only [startOrchestration] at h
    split_ifs at h
    · exact absurd h hfree
    · obtain ⟨i, hi, hid⟩ := h
      exact hnew i hi hid

theorem reserved_progress {engine : Engine} {instanceId other : String}
    {status : OrchestrationStatus} :
    Reserved (progress engine instanceId status) other ↔ Reserved engine other := by
  have hkeys : (progress engine instanceId status).map Instance.instanceId
      = engine.map Instance.instanceId := by
    refine map_updateKey ?_ instanceId
    intro i
    rfl
  have hmem : ∀ e : Engine, Reserved e other ↔ other ∈ e.map Instance.instanceId := by
    intro e
    simp [Reserved]
  rw [hmem, hmem, hkeys]

end Sporos.Service.Duroxide

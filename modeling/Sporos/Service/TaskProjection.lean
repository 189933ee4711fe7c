import Sporos.Lib.Loop
import Sporos.Service.Duroxide
import Sporos.Service.Tables

/-! # The projection of a task

`project_task` of `task_projection.rs`: the write of an expected generation to the row of a task,
with the event that the generation numbers; and `repair_terminal_task_projections`, which projects
the end of workflows that has not been projected. -/

namespace Sporos.Service.TaskProjection

open Sporos.Service.Duroxide
open Sporos.Service.Tables
open Sporos.Lib.Table
open Sporos.Lib.Loop

/-- A state that a task is to be given. -/
structure ProjectionUpdate where
  taskId : Id
  expectedGeneration : ℕ
  state : String
  reasonCode : Option String
  executionId : Option String
  observedRetryCount : ℕ
  detailJson : Option String
  occurredAt : ℤ
  terminal : Bool
  deriving DecidableEq, Repr

/-- What has become of an update. -/
inductive ProjectionOutcome where
  | applied (generation : ℕ)
  | alreadyApplied (generation : ℕ)
  | stale (actualGeneration : ℕ)
  | terminal (generation : ℕ)
  | missing
  deriving DecidableEq, Repr

/-- Why an update fails. -/
inductive ProjectionError where
  | database
  | emptyState
  | invalidDetail
  | valueOverflow
  deriving DecidableEq, Repr

/-- `event_matches`. -/
def eventMatches (db : Db) (update : ProjectionUpdate) (sequence : ℕ) : Bool :=
  match lookup EventRow.key db.events (update.taskId, sequence) with
  | none => false
  | some event => event.state = update.state ∧ event.reasonCode = update.reasonCode
      ∧ event.detailJson = update.detailJson

/-- The row of a task after an update. -/
def ProjectionUpdate.apply (update : ProjectionUpdate) (generation : ℕ) (row : TaskRow) : TaskRow :=
  { row with
    state := update.state
    projectionGeneration := generation
    executionId := update.executionId
    reasonCode := update.reasonCode
    observedRetryCount := update.observedRetryCount
    updatedAt := update.occurredAt
    terminalAt := if update.terminal then some update.occurredAt else none }

/-- The event of an update. -/
def ProjectionUpdate.event (update : ProjectionUpdate) (generation : ℕ) : EventRow where
  taskId := update.taskId
  sequence := generation
  state := update.state
  reasonCode := update.reasonCode
  detailJson := update.detailJson
  createdAt := update.occurredAt

/-- `validate`, where `fromStr` tells whether `serde_json` reads a text. -/
def validate (fromStr : String → Bool) (update : ProjectionUpdate) : Except ProjectionError Unit :=
  if update.state = "" then .error .emptyState
  else if update.detailJson.all fromStr then .ok ()
  else .error .invalidDetail

/-- `project_task`. The guarded `UPDATE` finds the row that the transaction has read, so that
`current_outcome` is not reached. -/
def projectTask (fromStr jsonValid : String → Bool) (db : Db) (update : ProjectionUpdate) :
    Except ProjectionError (Db × ProjectionOutcome) := do
  validate fromStr update
  match db.task update.taskId with
  | none => return (db, .missing)
  | some row =>
    let generation := row.projectionGeneration
    if generation ≠ update.expectedGeneration then
      if generation = min (update.expectedGeneration + 1) u64Max
          ∧ eventMatches db update generation = true then
        return (db, .alreadyApplied generation)
      return (db, .stale generation)
    if row.terminalAt.isSome then return (db, .terminal generation)
    if generation + 1 > i64Max ∨ update.observedRetryCount > i64Max then throw .valueOverflow
    let db := db.updateTask update.taskId (update.apply (generation + 1))
    match db.insertEvent jsonValid (update.event (generation + 1)) with
    | none => throw .database
    | some db => return (db, .applied (generation + 1))

/-- What `project_task` does: nothing, or the update of a task that is not terminal. -/
theorem projectTask_eq_ok {fromStr jsonValid : String → Bool} {db db' : Db}
    {update : ProjectionUpdate} {outcome : ProjectionOutcome}
    (h : projectTask fromStr jsonValid db update = .ok (db', outcome)) :
    db' = db ∨ ∃ row, db.task update.taskId = some row ∧ row.terminalAt = none
      ∧ row.projectionGeneration = update.expectedGeneration
      ∧ lookup EventRow.key db.events (update.taskId, row.projectionGeneration + 1) = none
      ∧ db' = { db.updateTask update.taskId (update.apply (row.projectionGeneration + 1)) with
          events := db.events ++ [update.event (row.projectionGeneration + 1)] } := by
  unfold projectTask at h
  obtain ⟨⟨⟩, -, h⟩ := bind_eq_ok.mp h
  cases hrow : db.task update.taskId with
  | none =>
    simp only [hrow, pure, Except.pure, Except.ok.injEq, Prod.mk.injEq] at h
    exact .inl h.1.symm
  | some row =>
    simp only [hrow] at h
    by_cases hgeneration : row.projectionGeneration = update.expectedGeneration
    · rw [if_neg (not_not.mpr hgeneration)] at h
      split_ifs at h with hterminal hrange
      · simp only [pure, Except.pure, Except.ok.injEq, Prod.mk.injEq] at h
        exact .inl h.1.symm
      · cases h
      · cases hevent : Db.insertEvent jsonValid
            (db.updateTask update.taskId (update.apply (row.projectionGeneration + 1)))
            (update.event (row.projectionGeneration + 1)) with
        | none => simp [hevent, throw, throwThe, MonadExceptOf.throw] at h
        | some db₁ =>
          obtain ⟨hfree, hdb₁⟩ := Db.insertEvent_eq_some hevent
          simp only [hevent, pure, Except.pure, Except.ok.injEq, Prod.mk.injEq] at h
          refine .inr ⟨row, rfl, by simpa using hterminal, hgeneration, hfree, ?_⟩
          rw [← h.1, hdb₁]
          rfl
    · rw [if_pos hgeneration] at h
      refine .inl ?_
      split_ifs at h <;>
        simp only [pure, Except.pure, Except.ok.injEq, Prod.mk.injEq] at h <;> exact h.1.symm

/-- When `project_task` applies an update. -/
theorem projectTask_applied {fromStr jsonValid : String → Bool} {db : Db}
    {update : ProjectionUpdate} {row : TaskRow} (hvalid : validate fromStr update = .ok ())
    (hrow : db.task update.taskId = some row)
    (hgeneration : row.projectionGeneration = update.expectedGeneration)
    (hopen : row.terminalAt = none)
    (hrange : row.projectionGeneration + 1 ≤ i64Max ∧ update.observedRetryCount ≤ i64Max)
    (hfree : lookup EventRow.key db.events (update.taskId, row.projectionGeneration + 1) = none)
    (hdetail : update.detailJson.all jsonValid = true) :
    projectTask fromStr jsonValid db update
      = .ok ({ db.updateTask update.taskId (update.apply (row.projectionGeneration + 1)) with
          events := db.events ++ [update.event (row.projectionGeneration + 1)] },
        .applied (row.projectionGeneration + 1)) := by
  have hevent : (db.updateTask update.taskId (update.apply (row.projectionGeneration
    + 1))).insertEvent jsonValid
      (update.event (row.projectionGeneration + 1))
        = some { db.updateTask update.taskId (update.apply (row.projectionGeneration + 1)) with
          events := db.events ++ [update.event (row.projectionGeneration + 1)] } := by
    rw [Db.insertEvent,
      show (update.event (row.projectionGeneration + 1)).detailJson.all jsonValid = true
      from hdetail, show lookup EventRow.key (db.updateTask update.taskId _).events
      (update.event (row.projectionGeneration + 1)).key = none from hfree]
    rfl
  unfold projectTask
  rw [hvalid, hrow]
  simp only [bind, Except.bind, hopen, Option.isSome_none, Bool.false_eq_true]
  rw [if_neg (not_not.mpr hgeneration), if_neg id, if_neg (by omega), hevent]
  rfl

/-! ### Repair -/

/-- The JSON decoders and encoders of the repair: a text field of an output, the reason of a
permanent failure, and the details of the event. -/
structure RepairCodec where
  outputField : String → String → Option String
  permanentReason : String → Option String
  completedDetailJson : String
  failedDetailJson : ErrorDetails → String

section

variable (codec : RepairCodec)

/-- `repaired_terminal`: the state, the reason and the detail of a workflow that has ended. -/
def repairedTerminal : OrchestrationStatus → Option (String × String × String)
  | .completed output =>
    some ((codec.outputField output "state").getD "completed",
      (codec.outputField output "reason_code").getD "workflow_completed", codec.completedDetailJson)
  | .failed details =>
    let reason := match details with
      | .application _ message => codec.permanentReason message
      | .other _ => none
    some (if details.isCancelled then "cancelled" else "failed",
      if details.isCancelled then "workflow_cancelled" else reason.getD "workflow_failed",
      codec.failedDetailJson details)
  | .notFound => none
  | .running => none

/-- The repair cursor is advanced for the rows of a batch. -/
def repairMark (db : Db) (ids : List Id) (occurredAt : ℤ) : Db :=
  ids.foldl (fun db id => db.updateTask id fun row =>
    if row.terminalAt = none then { row with repairCheckedAt := some occurredAt } else row) db

/-- The update of a row that the batch has read, if its workflow has ended. -/
def repairUpdate (seen : TaskRow) (status : OrchestrationStatus) (occurredAt : ℤ) :
    Option ProjectionUpdate :=
  (repairedTerminal codec status).map fun (state, reason, detail) =>
    { taskId := seen.id
      expectedGeneration := seen.projectionGeneration
      state
      reasonCode := some reason
      executionId := seen.executionId
      observedRetryCount := seen.observedRetryCount
      detailJson := some detail
      occurredAt
      terminal := true }

/-- The repair of one row of a batch; other operations may come between the read and the write. -/
def repairTask (fromStr jsonValid : String → Bool) (db : Db) (seen : TaskRow)
    (status : OrchestrationStatus) (occurredAt : ℤ) : Except ProjectionError Db :=
  match repairUpdate codec seen status occurredAt with
  | none => .ok db
  | some update => (projectTask fromStr jsonValid db update).map (·.1)

end

end Sporos.Service.TaskProjection

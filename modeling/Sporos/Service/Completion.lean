import Sporos.Lib.Sha256
import Sporos.Service.Sources

/-! # Completions

`accept` of `completion.rs`: the operation, the task, its first event, its start request and the row
of a completion, all named by the hash of the source and of the time of the completion. -/

namespace Sporos.Service.Completion

open Sporos.Service.Tables
open Sporos.Service.Ingress
open Sporos.Service.TaskControl
open Sporos.Service.Sources
open Sporos.Lib.Table

/-- SHA-256 and the encoders of the input and of the request. -/
structure CompletionCodec where
  sha256 : Bytes → Digest
  inputJson : Id → Id → Id → ℤ → ℤ → String
  requestJson : Id → ℤ → String

/-- SHA-256 and the encoders of `serde_json`. -/
def CompletionCodec.serde : CompletionCodec where
  sha256 := Sporos.Lib.Sha256.sha256
  inputJson operationId taskId sourceId completedAt observedAt :=
    let array (id : Id) :=
      "[" ++ ",".intercalate ((idBytes id).map fun b => toString b.toNat) ++ "]"
    "\x7b\"operation_id\":" ++ array operationId ++ ",\"task_id\":" ++ array taskId
      ++ ",\"source_id\":" ++ array sourceId ++ ",\"completed_at\":" ++ toString completedAt
      ++ ",\"observed_at\":" ++ toString observedAt ++ "\x7d"
  requestJson sourceId completedAt :=
    "\x7b\"completedAt\":" ++ toString completedAt ++ ",\"sourceId\":\""
      ++ encodeHex sourceId ++ "\"\x7d"

/-- The orchestration of a completion. -/
def orchestrationName : String := "QbittorrentCompletion"

/-- The version of the orchestration. -/
def orchestrationVersion : String := "1.0.0"

/-- The payload of the policy, which is the same for all completions. -/
def policyPayload : String := "\x7b\"kind\":\"qbittorrent_completion\",\"version\":1\x7d"

/-- `i64::to_be_bytes`. -/
def timeBytes (time : ℤ) : Bytes := generationBytes (time % 2 ^ 64).toNat

/-- The text that `identity` hashes. -/
def identityBytes (namespaceName : String) (sourceId : Id) (completedAt : ℤ) : Bytes :=
  generationBytes (utf8 namespaceName).length ++ utf8 namespaceName ++ idBytes sourceId
    ++ timeBytes completedAt

/-- The answer to a completion. -/
structure AcceptedCompletion where
  operationId : Id
  taskId : Id
  duplicate : Bool
  deriving DecidableEq, Repr

section

variable (codec : CompletionCodec)

/-- A hash in a name space, from the source and the time of its completion. -/
def id32 (namespaceName : String) (sourceId : Id) (completedAt : ℤ) : Digest :=
  codec.sha256 (identityBytes namespaceName sourceId completedAt)

/-- An id in a name space. -/
def id16 (namespaceName : String) (sourceId : Id) (completedAt : ℤ) : Id :=
  first16 (id32 codec namespaceName sourceId completedAt)

/-- The id of the operation of a completion. -/
def operationId : Id → ℤ → Id := id16 codec "qbit-completion-operation"

/-- The id of the task of a completion. -/
def taskId : Id → ℤ → Id := id16 codec "qbit-completion-task"

/-- The key of the task of a completion. -/
def taskKey : Id → ℤ → Digest := id32 codec "qbit-completion-key"

/-- The instance of a completion. -/
def instanceId (sourceId : Id) (completedAt : ℤ) : String :=
  "qbit-completion:" ++ encodeHex (operationId codec sourceId completedAt)

/-- The row of the policy. -/
def policyRow : PolicyRow where
  id := id16 codec "qbit-completion-policy" 0 1
  configHash := codec.sha256 (utf8 policyPayload)
  matcherVersion := "not_applicable"
  payloadJson := policyPayload
  createdAt := 0

/-- The row of the operation. -/
def operationRow (sourceId : Id) (completedAt observedAt : ℤ) : OperationRow where
  id := operationId codec sourceId completedAt
  kind := "qbittorrent_completion"
  state := "queued"
  instanceId := instanceId codec sourceId completedAt
  requestJson := codec.requestJson sourceId completedAt
  createdAt := observedAt
  updatedAt := observedAt

/-- The row of the task. -/
def taskRow (sourceId : Id) (completedAt observedAt : ℤ) : TaskRow where
  id := taskId codec sourceId completedAt
  kind := "qbittorrent_completion"
  state := "queued"
  projectionGeneration := 0
  instanceId := instanceId codec sourceId completedAt
  executionId := none
  policySnapshotId := (policyRow codec).id
  reasonCode := none
  lastErrorClass := none
  lastErrorMessage := none
  observedRetryCount := 0
  createdAt := observedAt
  updatedAt := observedAt
  terminalAt := none
  repairCheckedAt := none

/-- The first event of the task. -/
def eventRow (sourceId : Id) (completedAt observedAt : ℤ) : EventRow where
  taskId := taskId codec sourceId completedAt
  sequence := 0
  state := "queued"
  reasonCode := none
  detailJson := none
  createdAt := observedAt

/-- The start of the workflow in the outbox. -/
def startRow (id : ℕ) (sourceId : Id) (completedAt observedAt : ℤ) : OutboxRow :=
  outboxRow id (taskId codec sourceId completedAt) (taskKey codec sourceId completedAt)
    orchestrationName orchestrationVersion (instanceId codec sourceId completedAt)
    (codec.inputJson (operationId codec sourceId completedAt) (taskId codec sourceId completedAt)
      sourceId completedAt observedAt) observedAt

/-- The row of the completion itself. -/
def completionRow (sourceId : Id) (completedAt observedAt : ℤ) : CompletionRow where
  sourceId
  completedAt
  operationId := operationId codec sourceId completedAt
  taskId := taskId codec sourceId completedAt
  createdAt := observedAt

/-- The start request, unless its key is taken; a taken instance is an error. -/
def insertStart (outbox : List OutboxRow) (sourceId : Id) (completedAt observedAt : ℤ) :
    Option (List OutboxRow) :=
  if (lookup OutboxRow.taskKey outbox (taskKey codec sourceId completedAt)).isSome then some outbox
  else if (lookup OutboxRow.instanceId outbox (instanceId codec sourceId completedAt)).isSome
    then none
  else some (outbox ++ [startRow codec (nextOutboxId outbox) sourceId completedAt observedAt])

/-- The row of a completion, unless there is one; a taken operation or task is an error. -/
def insertCompletion (completions : List CompletionRow) (sourceId : Id)
    (completedAt observedAt : ℤ) : Option (List CompletionRow × Bool) :=
  if (lookup CompletionRow.key completions (sourceId, completedAt)).isSome then
    some (completions, false)
  else if (lookup CompletionRow.operationId completions
        (operationId codec sourceId completedAt)).isSome
      || (lookup CompletionRow.taskId completions (taskId codec sourceId completedAt)).isSome
        then none
  else some (completions ++ [completionRow codec sourceId completedAt observedAt], true)

/-- `accept`; `none` is an error of the database. -/
def accept (store : Store) (sourceId : Id) (completedAt observedAt : ℤ) :
    Option (Store × AcceptedCompletion) := do
  let db := store.db
  let policies := insertOrIgnore PolicyRow.id db.policies (policyRow codec)
  let operations :=
    insertOrIgnore OperationRow.id store.operations
      (operationRow codec sourceId completedAt observedAt)
  let tasks := insertOrIgnore TaskRow.id db.tasks (taskRow codec sourceId completedAt observedAt)
  let events :=
    insertOrIgnore EventRow.key db.events (eventRow codec sourceId completedAt observedAt)
  let outbox ← insertStart codec db.outbox sourceId completedAt observedAt
  let (completions, inserted) ←
    insertCompletion codec store.completions sourceId completedAt observedAt
  return ({ store with db := { db with policies, tasks, events, outbox }, operations, completions },
    ⟨operationId codec sourceId completedAt, taskId codec sourceId completedAt, !inserted⟩)

/-- What `accept` does. -/
theorem accept_eq_some {codec : CompletionCodec} {store store' : Store} {sourceId : Id}
    {completedAt observedAt : ℤ} {accepted : AcceptedCompletion}
    (h : accept codec store sourceId completedAt observedAt = some (store', accepted)) :
    ∃ outbox completions inserted,
      insertStart codec store.db.outbox sourceId completedAt observedAt = some outbox
      ∧ insertCompletion codec store.completions sourceId completedAt observedAt
        = some (completions, inserted)
      ∧ store' = { store with
          db := { store.db with
            policies := insertOrIgnore PolicyRow.id store.db.policies (policyRow codec)
            tasks := insertOrIgnore TaskRow.id store.db.tasks
              (taskRow codec sourceId completedAt observedAt)
            events := insertOrIgnore EventRow.key store.db.events
              (eventRow codec sourceId completedAt observedAt)
            outbox }
          operations := insertOrIgnore OperationRow.id store.operations
            (operationRow codec sourceId completedAt observedAt)
          completions } := by
  unfold accept at h
  obtain ⟨outbox, hstart, h⟩ := Option.bind_eq_some_iff.mp h
  obtain ⟨⟨completions, inserted⟩, hcompletion, h⟩ := Option.bind_eq_some_iff.mp h
  simp only [pure, Option.some_inj, Prod.mk.injEq] at h
  exact ⟨outbox, completions, inserted, hstart, hcompletion, h.1.symm⟩

/-- The rows of completions after an insertion that is no error. -/
theorem insertCompletion_eq_some {codec : CompletionCodec}
    {completions completions' : List CompletionRow} {sourceId : Id} {completedAt observedAt : ℤ}
    {inserted : Bool} (h : insertCompletion codec completions sourceId completedAt observedAt
      = some (completions', inserted)) :
    completions' = insertOrIgnore CompletionRow.key completions
      (completionRow codec sourceId completedAt observedAt) := by
  have hkey : (completionRow codec sourceId completedAt observedAt).key = (sourceId,
    completedAt) := rfl
  rw [insertCompletion] at h
  rw [insertOrIgnore, hkey]
  split at h
  · rename_i hknown
    rw [if_pos hknown]
    exact (Prod.mk.inj (Option.some_inj.mp h)).1.symm
  · rename_i hknown
    rw [if_neg hknown]
    split at h
    · cases h
    · exact (Prod.mk.inj (Option.some_inj.mp h)).1.symm

/-- The start requests after an insertion that is no error. -/
theorem insertStart_eq_some {codec : CompletionCodec} {outbox outbox' : List OutboxRow}
    {sourceId : Id} {completedAt observedAt : ℤ}
    (h : insertStart codec outbox sourceId completedAt observedAt = some outbox') :
    (taskKey codec sourceId completedAt ∈ outbox.map OutboxRow.taskKey ∧ outbox' = outbox)
      ∨ (taskKey codec sourceId completedAt ∉ outbox.map OutboxRow.taskKey
        ∧ outbox' = outbox
          ++ [startRow codec (nextOutboxId outbox) sourceId completedAt observedAt]) := by
  rw [insertStart] at h
  split at h
  · rename_i hknown
    exact .inl ⟨lookup_isSome_iff.mp hknown, (Option.some_inj.mp h).symm⟩
  · rename_i hknown
    split at h
    · cases h
    · exact .inr ⟨fun hmem => hknown (lookup_isSome_iff.mpr hmem), (Option.some_inj.mp h).symm⟩

end

end Sporos.Service.Completion

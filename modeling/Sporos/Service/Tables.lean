import Sporos.Lib.Table
import Sporos.Model.Matching

/-! # The tables

The tables of the migrations that durable ingress, task control and the projections use. Identifiers
and digests are bit vectors of the length the schema demands, texts are strings, timestamps are
integers, and a row without a modelled column is a row where no modelled statement reads it.
`sporos_task_event.id` is such a column. -/

namespace Sporos.Service.Tables

open Sporos.Lib.Table

/-- A 16-byte identifier. -/
abbrev Id := BitVec 128

/-- A 32-byte digest. -/
abbrev Digest := BitVec 256

/-- A blob. -/
abbrev Bytes := List UInt8

/-- `i64::MAX`, the largest integer of a column. -/
def i64Max : ℕ := 2 ^ 63 - 1

/-- `u64::MAX`. -/
def u64Max : ℕ := 2 ^ 64 - 1

/-- A row of `sporos_policy_snapshot`. -/
structure PolicyRow where
  id : Id
  configHash : Digest
  matcherVersion : String
  payloadJson : String
  createdAt : ℤ
  deriving DecidableEq, Repr

/-- A row of `sporos_task`. -/
structure TaskRow where
  id : Id
  kind : String
  state : String
  projectionGeneration : ℕ
  instanceId : String
  executionId : Option String
  policySnapshotId : Id
  reasonCode : Option String
  lastErrorClass : Option String
  lastErrorMessage : Option String
  observedRetryCount : ℕ
  createdAt : ℤ
  updatedAt : ℤ
  terminalAt : Option ℤ
  repairCheckedAt : Option ℤ
  deriving DecidableEq, Repr

/-- A row of `sporos_task_event`. -/
structure EventRow where
  taskId : Id
  sequence : ℕ
  state : String
  reasonCode : Option String
  detailJson : Option String
  createdAt : ℤ
  deriving DecidableEq, Repr

/-- A row of `sporos_outbox`. -/
structure OutboxRow where
  id : ℕ
  taskId : Id
  taskKey : Digest
  orchestrationName : String
  orchestrationVersion : String
  instanceId : String
  inputJson : String
  visibleAt : ℤ
  attemptCount : ℕ
  leaseToken : Option Id
  leaseUntil : Option ℤ
  dispatchedAt : Option ℤ
  permanentFailureAt : Option ℤ
  lastError : Option String
  deriving DecidableEq, Repr

/-- A row of `sporos_blob`. -/
structure BlobRow where
  sha256 : Digest
  mediaType : String
  size : ℕ
  data : Bytes
  createdAt : ℤ
  deriving DecidableEq, Repr

/-- A row of `sporos_candidate`. -/
structure CandidateRow where
  id : Id
  blobSha256 : Digest
  v1Hash : Option (BitVec 160)
  v2Hash : Option (BitVec 256)
  manifestDigest : Digest
  displayName : String
  releaseJson : String
  state : String
  createdAt : ℤ
  updatedAt : ℤ
  manifestJson : String
  deriving DecidableEq, Repr

/-- A row of `sporos_candidate_task`. -/
structure CandidateTaskRow where
  candidateId : Id
  policySnapshotId : Id
  taskId : Id
  deriving DecidableEq, Repr

/-- A row of `sporos_candidate_provenance`. -/
structure ProvenanceRow where
  candidateId : Id
  trigger : String
  indexerId : Option ℤ
  indexerName : Option String
  announcementName : Option String
  requestId : String
  receivedAt : ℤ
  detailJson : String
  deriving DecidableEq, Repr

/-- The tables of the tasks and the candidates. -/
structure Db where
  policies : List PolicyRow
  tasks : List TaskRow
  events : List EventRow
  outbox : List OutboxRow
  blobs : List BlobRow
  candidates : List CandidateRow
  candidateTasks : List CandidateTaskRow
  provenance : List ProvenanceRow
  deriving DecidableEq, Repr

/-- The tables after the migrations. -/
def Db.empty : Db := ⟨[], [], [], [], [], [], [], []⟩

/-- The unique columns of an event. -/
def EventRow.key (row : EventRow) : Id × ℕ := (row.taskId, row.sequence)

/-- The primary key of a candidate task. -/
def CandidateTaskRow.key (row : CandidateTaskRow) : Id × Id :=
  (row.candidateId, row.policySnapshotId)

/-- The row identifier SQLite gives to the next row of the outbox. -/
def nextOutboxId (outbox : List OutboxRow) : ℕ := (outbox.map OutboxRow.id).foldr max 0 + 1

/-- The row of a task. -/
def Db.task (db : Db) (id : Id) : Option TaskRow := lookup TaskRow.id db.tasks id

/-- Update the row of a task. -/
def Db.updateTask (db : Db) (id : Id) (f : TaskRow → TaskRow) : Db :=
  { db with tasks := updateKey TaskRow.id db.tasks id f }

/-- `INSERT INTO sporos_task_event`, which fails if the sequence number is taken or the detail is
not JSON. -/
def Db.insertEvent (jsonValid : String → Bool) (db : Db) (row : EventRow) : Option Db :=
  if !row.detailJson.all jsonValid || (lookup EventRow.key db.events row.key).isSome then none
  else some { db with events := db.events ++ [row] }

/-- `INSERT INTO sporos_outbox`, which fails if the key or the instance is taken or the input is not
JSON. -/
def Db.insertOutbox (jsonValid : String → Bool) (db : Db) (row : OutboxRow) : Option Db :=
  if !jsonValid row.inputJson || (lookup OutboxRow.taskKey db.outbox row.taskKey).isSome
      || (lookup OutboxRow.instanceId db.outbox row.instanceId).isSome then none
  else some { db with outbox := db.outbox ++ [row] }

/-- The three writes of an operator's request: a start request, the row of the task and an event. -/
def Db.write (jsonValid : String → Bool) (db : Db) (taskId : Id)
    (f : TaskRow → TaskRow) (start : OutboxRow) (event : EventRow) : Option Db :=
  (db.insertOutbox jsonValid start).bind fun db =>
    (db.updateTask taskId f).insertEvent jsonValid event

section

variable {jsonValid : String → Bool} {db db' : Db}

theorem Db.insertEvent_eq_some {row : EventRow} (h : db.insertEvent jsonValid row = some db') :
    lookup EventRow.key db.events row.key = none
      ∧ db' = { db with events := db.events ++ [row] } := by
  unfold Db.insertEvent at h
  split_ifs at h with hfree
  simp only [Bool.or_eq_true, not_or, Option.not_isSome_iff_eq_none] at hfree
  exact ⟨hfree.2, (Option.some_inj.mp h).symm⟩

theorem Db.insertOutbox_eq_some {row : OutboxRow} (h : db.insertOutbox jsonValid row = some db') :
    lookup OutboxRow.taskKey db.outbox row.taskKey = none
      ∧ lookup OutboxRow.instanceId db.outbox row.instanceId = none
      ∧ db' = { db with outbox := db.outbox ++ [row] } := by
  unfold Db.insertOutbox at h
  split_ifs at h with hfree
  simp only [Bool.or_eq_true, not_or, Option.not_isSome_iff_eq_none] at hfree
  exact ⟨hfree.1.2, hfree.2, (Option.some_inj.mp h).symm⟩

end

/-- The task after an update, if the update keeps the identifiers. -/
theorem Db.task_updateTask (f : TaskRow → TaskRow) (hf : ∀ row, (f row).id = row.id) (db : Db)
    (id id' : Id) : (db.updateTask id f).task id' =
      if id' = id then (db.task id').map f else db.task id' :=
  lookup_updateKey hf db.tasks id id'

end Sporos.Service.Tables

import Sporos.Service.Ingress
import Sporos.Service.TaskProjection

/-! # Task control

The operator's `retry` and `request_cancel`, and `record_terminal`, of `task_control.rs`. Each is
one transaction; an error rolls it back.

SHA-256, the JSON encoders and `json_valid` are the fields of `ControlCodec`. -/

namespace Sporos.Service.TaskControl

open Sporos.Service.Tables
open Sporos.Service.Ingress
open Sporos.Service.TaskProjection
open Sporos.Lib.Table
open Sporos.Lib.Loop

/-- The hash, the check of JSON, and the input of a cancellation workflow. -/
structure ControlCodec where
  sha256 : Bytes → Digest
  jsonValid : String → Bool
  cancellationInputJson : Id → String → String
  retryDetailJson : String → String → String
  cancelDetailJson : String → String → String

/-- The encoders of `serde_json` on texts in which nothing is escaped, with a hash function. -/
def ControlCodec.plain (sha256 : Bytes → Digest) : ControlCodec where
  sha256
  jsonValid _ := true
  cancellationInputJson taskId targetInstance :=
    "\x7b\"task_id\":[" ++ ",".intercalate ((idBytes taskId).map (fun b => toString b.toNat))
      ++ "],\"target_instance\":\"" ++ targetInstance ++ "\"\x7d"
  retryDetailJson previousInstance instanceId :=
    "\x7b\"instanceId\":\"" ++ instanceId ++ "\",\"previousInstanceId\":\""
      ++ previousInstance ++ "\"\x7d"
  cancelDetailJson instanceId reconciliationInstance :=
    "\x7b\"instanceId\":\"" ++ instanceId ++ "\",\"reconciliationInstanceId\":\""
      ++ reconciliationInstance ++ "\"\x7d"

/-- Why a request of an operator is refused. -/
inductive TaskControlError where
  | database
  | taskNotFound
  | taskTerminal
  | taskNotRetryable
  | unsupportedRetry
  | generationRange
  deriving DecidableEq, Repr

/-- The bytes of a digest. -/
def digestBytes (digest : Digest) : Bytes :=
  (List.range 32).map (fun i => (digest.extractLsb' (8 * (31 - i)) 8).toNat.toUInt8)

/-- `to_be_bytes` of a generation. -/
def generationBytes (generation : ℕ) : Bytes :=
  (List.range 8).map (fun i => (generation / 2 ^ (8 * (7 - i)) % 256).toUInt8)

theorem generationBytes_inj {m n : ℕ} (hm : m < 2 ^ 64) (hn : n < 2 ^ 64)
    (h : generationBytes m = generationBytes n) : m = n := by
  have hbyte : ∀ i < 8, m / 2 ^ (8 * (7 - i)) % 256 = n / 2 ^ (8 * (7 - i)) % 256 := by
    intro i hi
    have hmap := List.map_inj_left.mp h i (List.mem_range.mpr hi)
    exact toUInt8_inj (Nat.mod_lt _ (by decide)) (Nat.mod_lt _ (by decide)) hmap
  refine Nat.eq_of_testBit_eq fun j => ?_
  by_cases hj : j < 64
  · have hbit := congrArg (Nat.testBit · (j % 8)) (hbyte (7 - j / 8) (by omega))
    have hplace : 8 * (7 - (7 - j / 8)) + j % 8 = j := by omega
    have htest : ∀ k : ℕ,
        (k / 2 ^ (8 * (7 - (7 - j / 8))) % 2 ^ 8).testBit (j % 8) = k.testBit j := by
      intro k
      rw [Nat.testBit_mod_two_pow, Nat.testBit_div_two_pow, Nat.add_comm, hplace]
      simp [Nat.mod_lt]
    rw [← htest m, ← htest n]
    exact hbit
  · have hle : 2 ^ 64 ≤ 2 ^ j := Nat.pow_le_pow_right (by decide) (not_lt.mp hj)
    rw [Nat.testBit_lt_two_pow (hm.trans_le hle), Nat.testBit_lt_two_pow (hn.trans_le hle)]

/-- A row of the outbox as the operations of this module insert it. -/
def outboxRow (id : ℕ) (taskId : Id) (taskKey : Digest) (name version instanceId inputJson : String)
    (now : ℤ) : OutboxRow where
  id
  taskId
  taskKey
  orchestrationName := name
  orchestrationVersion := version
  instanceId
  inputJson
  visibleAt := now
  attemptCount := 0
  leaseToken := none
  leaseUntil := none
  dispatchedAt := none
  permanentFailureAt := none
  lastError := none

section

variable (codec : ControlCodec)

/-! ### Retry -/

/-- The kinds of task that an operator may retry. -/
def retryableKinds : List String :=
  ["process_candidate", "search_source_indexer", "inventory_search", "data_scan"]

/-- The key of a retry. -/
def retryKey (oldKey : Digest) (generation : ℕ) : Digest :=
  codec.sha256 (utf8 "task-retry-v1" ++ digestBytes oldKey ++ generationBytes generation)

/-- The instance of a retry. -/
def retryInstance (previousInstance : String) (generation : ℕ) : String :=
  previousInstance ++ ":retry:" ++ toString generation

/-- The start request of a retry. -/
def retryStart (id : ℕ) (taskId : Id) (start : OutboxRow) (generation : ℕ) (now : ℤ) : OutboxRow :=
  outboxRow id taskId (retryKey codec start.taskKey generation) start.orchestrationName
    start.orchestrationVersion (retryInstance start.instanceId generation) start.inputJson now

/-- The row of a task after a retry. -/
def retryRow (instanceId : String) (generation : ℕ) (now : ℤ) (row : TaskRow) : TaskRow :=
  { row with
    state := "queued"
    projectionGeneration := generation
    instanceId
    executionId := none
    reasonCode := none
    lastErrorClass := none
    lastErrorMessage := none
    observedRetryCount := row.observedRetryCount + 1
    updatedAt := now
    terminalAt := none }

/-- The event of a retry. -/
def retryEvent (taskId : Id) (previousInstance : String) (generation : ℕ) (now : ℤ) : EventRow where
  taskId
  sequence := generation
  state := "queued"
  reasonCode := some "operator_retry"
  detailJson := some (codec.retryDetailJson previousInstance
    (retryInstance previousInstance generation))
  createdAt := now

/-- `retry`: one transaction. -/
def retry (db : Db) (taskId : Id) (now : ℤ) : Except TaskControlError (Db × String) :=
  match db.task taskId with
  | none => .error .taskNotFound
  | some row =>
    match lookup OutboxRow.instanceId db.outbox row.instanceId with
    | none => .error .taskNotFound
    | some start =>
      let generation := row.projectionGeneration + 1
      let instanceId := retryInstance start.instanceId generation
      if row.kind ∉ retryableKinds then .error .unsupportedRetry
      else if row.terminalAt = none ∨ (row.state ≠ "failed" ∧ row.state ≠ "cancelled") then
        .error .taskNotRetryable
      else if generation > i64Max then .error .generationRange
      else
        match db.write codec.jsonValid taskId (retryRow instanceId generation now)
          (retryStart codec (nextOutboxId db.outbox) taskId start generation now)
          (retryEvent codec taskId start.instanceId generation now) with
        | none => .error .database
        | some db => .ok (db, instanceId)

/-! ### Cancellation -/

/-- The answer to a cancellation. -/
structure CancelAccepted where
  targetInstance : String
  duplicate : Bool
  deriving DecidableEq, Repr

/-- The key of a cancellation. -/
def cancelKey (taskId : Id) (generation : ℕ) : Digest :=
  codec.sha256 (utf8 "task-cancellation-v1" ++ idBytes taskId ++ generationBytes generation)

/-- The instance of a cancellation. -/
def cancelInstance (taskId : Id) (generation : ℕ) : String :=
  "cancel-task:" ++ encodeHex taskId ++ ":" ++ toString generation

/-- The start request of the reconciliation of a cancellation. -/
def cancelStart (id : ℕ) (taskId : Id) (targetInstance : String) (generation : ℕ) (now : ℤ) :
    OutboxRow :=
  outboxRow id taskId (cancelKey codec taskId generation) "ReconcileTaskCancellation" "1.0.0"
    (cancelInstance taskId generation) (codec.cancellationInputJson taskId targetInstance) now

/-- The row of a task after a request to cancel it. -/
def cancelRow (generation : ℕ) (now : ℤ) (row : TaskRow) : TaskRow :=
  { row with
    state := "cancellation_requested"
    projectionGeneration := generation
    reasonCode := some "operator_cancel"
    updatedAt := now }

/-- The event of a request to cancel a task. -/
def cancelEvent (taskId : Id) (targetInstance : String) (generation : ℕ) (now : ℤ) : EventRow where
  taskId
  sequence := generation
  state := "cancellation_requested"
  reasonCode := some "operator_cancel"
  detailJson := some (codec.cancelDetailJson targetInstance (cancelInstance taskId generation))
  createdAt := now

/-- `request_cancel`. The guarded `UPDATE` finds the row that the transaction has read. -/
def requestCancel (db : Db) (taskId : Id) (now : ℤ) :
    Except TaskControlError (Db × CancelAccepted) :=
  match db.task taskId with
  | none => .error .taskNotFound
  | some row =>
    let generation := row.projectionGeneration + 1
    if row.terminalAt.isSome then .error .taskTerminal
    else if row.state = "cancellation_requested" then .ok (db, ⟨row.instanceId, true⟩)
    else if generation > i64Max then .error .generationRange
    else
      match db.write codec.jsonValid taskId (cancelRow generation now)
        (cancelStart codec (nextOutboxId db.outbox) taskId row.instanceId generation now)
        (cancelEvent codec taskId row.instanceId generation now) with
      | none => .error .database
      | some db => .ok (db, ⟨row.instanceId, false⟩)

/-- The row of a task that a reconciliation has made terminal. -/
def terminalRow (state reason : String) (generation : ℕ) (now : ℤ) (row : TaskRow) : TaskRow :=
  { row with
    state
    projectionGeneration := generation
    reasonCode := some reason
    updatedAt := now
    terminalAt := some now }

/-- The event of the end of a task. -/
def terminalEvent (taskId : Id) (state reason : String) (generation : ℕ) (now : ℤ) : EventRow where
  taskId
  sequence := generation
  state
  reasonCode := some reason
  detailJson := none
  createdAt := now

/-- `record_terminal`, which does nothing unless the cancellation is requested and not settled. -/
def recordTerminal (db : Db) (taskId : Id) (state reason : String) (now : ℤ) :
    Except TaskControlError Db :=
  match db.task taskId with
  | none => .ok db
  | some row =>
    let generation := row.projectionGeneration + 1
    if row.state ≠ "cancellation_requested" ∨ row.terminalAt ≠ none then .ok db
    else if generation > i64Max then .error .generationRange
    else
      match (db.updateTask taskId (terminalRow state reason generation now)).insertEvent
        codec.jsonValid (terminalEvent taskId state reason generation now) with
      | none => .error .database
      | some db => .ok db

/-! ### What the operations do -/

variable {codec} {db db' : Db} {taskId : Id} {now : ℤ}

theorem write_eq_some {jsonValid : String → Bool} {f : TaskRow → TaskRow} {start : OutboxRow}
    {event : EventRow} (h : db.write jsonValid taskId f start event = some db') :
    lookup OutboxRow.taskKey db.outbox start.taskKey = none
      ∧ lookup OutboxRow.instanceId db.outbox start.instanceId = none
      ∧ lookup EventRow.key db.events event.key = none
      ∧ db' = { db.updateTask taskId f with
          outbox := db.outbox ++ [start], events := db.events ++ [event] } := by
  obtain ⟨db₁, houtbox, hevent⟩ := Option.bind_eq_some_iff.mp h
  obtain ⟨hkey, hinstance, rfl⟩ := Db.insertOutbox_eq_some houtbox
  obtain ⟨hfree, rfl⟩ := Db.insertEvent_eq_some hevent
  exact ⟨hkey, hinstance, hfree, rfl⟩

/-- A retry is of a terminal task with a start request, and gives it a new instance. -/
theorem retry_eq_ok {instanceId : String} (h : retry codec db taskId now = .ok (db', instanceId)) :
    ∃ row start, db.task taskId = some row
      ∧ lookup OutboxRow.instanceId db.outbox row.instanceId = some start
      ∧ row.kind ∈ retryableKinds ∧ row.terminalAt ≠ none
      ∧ (row.state = "failed" ∨ row.state = "cancelled")
      ∧ db.write codec.jsonValid taskId
          (retryRow (retryInstance start.instanceId (row.projectionGeneration + 1))
            (row.projectionGeneration + 1) now)
          (retryStart codec (nextOutboxId db.outbox) taskId start
            (row.projectionGeneration + 1) now)
          (retryEvent codec taskId start.instanceId (row.projectionGeneration + 1) now)
        = some db' := by
  unfold retry at h
  cases hrow : db.task taskId with
  | none => simp [hrow] at h
  | some row =>
    cases hstart : lookup OutboxRow.instanceId db.outbox row.instanceId with
    | none => simp [hrow, hstart] at h
    | some start =>
      simp only [hrow, hstart] at h
      split_ifs at h with hkind hstate hrange
      split at h
      · cases h
      · rename_i db₁ hwrite
        obtain ⟨rfl, -⟩ : db₁ = db' ∧ _ := by simpa using h
        simp only [not_or, not_and_or, not_not] at hkind hstate
        exact ⟨row, start, rfl, hstart, hkind, hstate.1, hstate.2, hwrite⟩

/-- A request to cancel changes nothing if there is one, and else marks a task that is not
terminal. -/
theorem requestCancel_eq_ok {accepted : CancelAccepted}
    (h : requestCancel codec db taskId now = .ok (db', accepted)) :
    ∃ row, db.task taskId = some row ∧ row.terminalAt = none
      ∧ ((row.state = "cancellation_requested" ∧ db' = db)
        ∨ (row.state ≠ "cancellation_requested"
          ∧ db.write codec.jsonValid taskId (cancelRow (row.projectionGeneration + 1) now)
              (cancelStart codec (nextOutboxId db.outbox) taskId row.instanceId
                (row.projectionGeneration + 1) now)
              (cancelEvent codec taskId row.instanceId (row.projectionGeneration + 1) now)
            = some db')) := by
  unfold requestCancel at h
  cases hrow : db.task taskId with
  | none => simp [hrow] at h
  | some row =>
    simp only [hrow] at h
    split_ifs at h with hterminal hstate hrange
    · obtain ⟨rfl, -⟩ : db = db' ∧ _ := by simpa using h
      exact ⟨row, rfl, by simpa using hterminal, .inl ⟨hstate, rfl⟩⟩
    · split at h
      · cases h
      · rename_i db₁ hwrite
        obtain ⟨rfl, -⟩ : db₁ = db' ∧ _ := by simpa using h
        exact ⟨row, rfl, by simpa using hterminal, .inr ⟨hstate, hwrite⟩⟩

/-- `record_terminal` changes nothing, or settles a requested cancellation. -/
theorem recordTerminal_eq_ok {state reason : String}
    (h : recordTerminal codec db taskId state reason now = .ok db') :
    db' = db ∨ ∃ row, db.task taskId = some row ∧ row.state = "cancellation_requested"
      ∧ row.terminalAt = none
      ∧ lookup EventRow.key db.events (taskId, row.projectionGeneration + 1) = none
      ∧ db' = { db.updateTask taskId
            (terminalRow state reason (row.projectionGeneration + 1) now) with
          events := db.events
            ++ [terminalEvent taskId state reason (row.projectionGeneration + 1) now] } := by
  unfold recordTerminal at h
  cases hrow : db.task taskId with
  | none =>
    simp only [hrow, Except.ok.injEq] at h
    exact .inl h.symm
  | some row =>
    simp only [hrow] at h
    split_ifs at h with hstate hrange
    · exact .inl (Except.ok.inj h).symm
    · split at h
      · cases h
      · rename_i db₁ hevent
        obtain rfl : db₁ = db' := by simpa using h
        obtain ⟨hfree, rfl⟩ := Db.insertEvent_eq_some hevent
        simp only [not_or, not_not] at hstate
        exact .inr ⟨row, rfl, hstate.1, hstate.2, hfree, rfl⟩

end

end Sporos.Service.TaskControl

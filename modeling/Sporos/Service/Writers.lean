import Sporos.Service.TaskControl

/-! # The writers of a task

What the workflows write to `sporos_task`: `project_candidate_task` of `candidate_workflow.rs`,
`project_completion` of `completion.rs` and `search.rs`, `mark_searching`, `wait`, `finish` and
`produce_page` of `search.rs`, and `scan_page` and `finish` of `data_scan.rs`.

The pages of a backfill, of a data scan and of a completion accept search tasks in the transaction
that writes the row; which tasks these are is an argument here. -/

namespace Sporos.Service.Writers

open Sporos.Service.Tables
open Sporos.Service.Ingress
open Sporos.Service.TaskProjection
open Sporos.Lib.Table
open Sporos.Lib.Loop

/-! ### Candidates and completions -/

section

variable (fromStr jsonValid : String → Bool)

/-- The update of `project_candidate_task` for a row that it has read, unless the row has the state
or is terminal. -/
def candidateUpdate (row : TaskRow) (taskId : Id) (state : String) (reasonCode : Option String)
    (terminal : Bool) (detailJson : String) (now : ℤ) : Option ProjectionUpdate :=
  if row.state = state ∨ row.terminalAt.isSome then none
  else some
    { taskId
      expectedGeneration := row.projectionGeneration
      state
      reasonCode
      executionId := none
      observedRetryCount := 0
      detailJson := some detailJson
      occurredAt := now
      terminal }

/-- `project_candidate_task`, where `seen` is the row as it was read before the projection. A
missing task is an error, which leaves the tables as they are. -/
def projectCandidateTask (db : Db) (seen : Option TaskRow) (taskId : Id) (state : String)
    (reasonCode : Option String) (terminal : Bool) (detailJson : String) (now : ℤ) :
    Except ProjectionError Db :=
  match seen.bind (candidateUpdate · taskId state reasonCode terminal detailJson now) with
  | none => .ok db
  | some update => (projectTask fromStr jsonValid db update).map (·.1)

/-- The search tasks of a page, each accepted in the transaction of the page. -/
def acceptAll (db : Db) (tasks : List NewTask) : Except DurableIngressError Db :=
  tasks.foldlM (fun db t => (acceptTaskIn jsonValid db t).map (·.1)) db

/-- The row of a completed completion, if the task has not been projected. -/
def completionRow (observedAt : ℤ) (row : TaskRow) : TaskRow :=
  if row.projectionGeneration = 0 then
    { row with
      state := "completed"
      projectionGeneration := 1
      updatedAt := observedAt
      terminalAt := some observedAt }
  else row

/-- The event of a completion. -/
def completionEvent (taskId : Id) (detailJson : String) (observedAt : ℤ) : EventRow where
  taskId
  sequence := 1
  state := "completed"
  reasonCode := none
  detailJson := some detailJson
  createdAt := observedAt

/-- `project_completion` of the storage, and `project_completion_in` of the search. The event refers
to the task, which must exist. -/
def projectCompletionIn (db : Db) (taskId : Id) (detailJson : String) (observedAt : ℤ) :
    Except DurableIngressError Db :=
  if jsonValid detailJson ∧ (db.task taskId).isSome then
    let db := db.updateTask taskId (completionRow observedAt)
    .ok { db with
      events :=
        insertOrIgnore EventRow.key db.events (completionEvent taskId detailJson observedAt) }
  else .error .database

/-- `project_completion` of the search: the search tasks of the indexers, then the projection. -/
def projectCompletion (db : Db) (taskId : Id) (tasks : List NewTask) (detailJson : String)
    (observedAt : ℤ) : Except DurableIngressError Db := do
  let db ← acceptAll jsonValid db tasks
  projectCompletionIn jsonValid db taskId detailJson observedAt

/-! ### Searches -/

/-- `UPDATE sporos_task … WHERE id = ? AND terminal_at IS NULL`. -/
def updateOpenTask (db : Db) (taskId : Id) (f : TaskRow → TaskRow) : Db :=
  db.updateTask taskId fun row => if row.terminalAt = none then f row else row

/-- `mark_searching`, as far as it concerns the task. -/
def markSearching (db : Db) (taskId : Id) (now : ℤ) : Db :=
  updateOpenTask db taskId fun row => { row with state := "searching", updatedAt := now }

/-- `wait`, as far as it concerns the task. -/
def wait (db : Db) (taskId : Id) (reason : String) (now : ℤ) : Db :=
  updateOpenTask db taskId fun row =>
    { row with
      state := "waiting_dependency"
      reasonCode := some reason
      observedRetryCount := row.observedRetryCount + 1
      updatedAt := now }

/-- The state that a finished task gets. -/
def finishedState (failed : Bool) : String := if failed then "failed" else "completed"

/-- The row of a finished task. -/
def finishedRow (now : ℤ) (reason : String) (failed : Bool) (row : TaskRow) : TaskRow :=
  { row with
    state := finishedState failed
    reasonCode := some reason
    updatedAt := now
    terminalAt := some now }

/-- `finish` of the search. -/
def searchFinish (db : Db) (taskId : Id) (now : ℤ) (reason : String) (failed : Bool) : Db :=
  db.updateTask taskId (finishedRow now reason failed)

/-- The row of a backfill after a page. -/
def pageRow (done : Bool) (now : ℤ) (row : TaskRow) : TaskRow :=
  { row with
    state := if done then "completed" else "running"
    updatedAt := now
    terminalAt := if done then some now else none }

/-- A page of a task that produces others: they are accepted, and the task is updated. -/
def producePage (db : Db) (taskId : Id) (tasks : List NewTask) (done : Bool) (now : ℤ) :
    Except DurableIngressError Db :=
  (acceptAll jsonValid db tasks).map (·.updateTask taskId (pageRow done now))

/-! ### Data scans -/

/-- The row of a data scan after a page. -/
def scanRow (now : ℤ) (row : TaskRow) : TaskRow :=
  { row with state := "running", updatedAt := now }

/-- A page of a scan: its tasks are accepted, and the task is updated. -/
def scanPage (db : Db) (taskId : Id) (tasks : List NewTask) (now : ℤ) :
    Except DurableIngressError Db :=
  (acceptAll jsonValid db tasks).map (·.updateTask taskId (scanRow now))

/-- `finish` of the data scan. -/
def scanFinish (db : Db) (taskId : Id) (now : ℤ) (reason : String) (failed : Bool) : Db :=
  db.updateTask taskId (finishedRow now reason failed)

end

end Sporos.Service.Writers

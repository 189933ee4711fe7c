import Mathlib.Data.Prod.Lex
import Sporos.Lib.Lists
import Sporos.Service.TaskProjection

/-! # The repair of projections

`repair_terminal_task_projections` of `task_projection.rs`: a call lists the tasks that are not
terminal, those that were checked least recently first, marks the first ones as checked, and then
asks the engine about each of them. A query that fails ends the call, so that the tasks behind it
have been marked and not been looked at. A task whose workflow has ended is projected within as many
calls as there are open tasks, as long as no call stops in front of such a task
(`repair_not_starved`). -/

namespace Sporos.Service.ProjectionRepair

open Sporos.Service.Duroxide
open Sporos.Service.Tables
open Sporos.Service.TaskProjection
open Sporos.Lib.Table
open Sporos.Lib.Lists
open Sporos.Lib.Loop

/-- How many tasks a repair has looked at, and how many it has changed. -/
structure ProjectionRepairReport where
  inspected : ℕ
  repaired : ℕ
  deriving DecidableEq, Repr

/-- The report after a task that has been projected. -/
def ProjectionRepairReport.add (report : ProjectionRepairReport) : ProjectionOutcome →
    ProjectionRepairReport
  | .applied _ => ⟨report.inspected + 1, report.repaired + 1⟩
  | _ => ⟨report.inspected + 1, report.repaired⟩

/-- Why a repair stops. -/
inductive ProjectionRepairError where
  | client
  | projection (error : ProjectionError)
  deriving DecidableEq, Repr

/-- A call: its time, and what the engine answers about an instance. A query without an answer
fails. -/
structure RepairCall where
  occurredAt : ℤ
  status : String → Option OrchestrationStatus

/-- The order of the query. -/
def repairOrder (row : TaskRow) : ℕ ×ₗ ℤ ×ₗ ℤ ×ₗ ℕ :=
  toLex (if row.repairCheckedAt.isSome then 1 else 0,
    toLex (row.repairCheckedAt.getD 0, toLex (row.updatedAt, row.id.toNat)))

/-- The tasks that are not terminal. -/
def openTasks (db : Db) : List TaskRow := db.tasks.filter fun row => row.terminalAt = none

/-- The rows of the query. -/
def repairRows (limit : ℕ) (db : Db) : List TaskRow :=
  ((openTasks db).insertionSort (ByKey repairOrder)).take (min limit i64Max)

section

variable (codec : RepairCodec) (fromStr jsonValid : String → Bool)

/-- The loop over the rows. What has been committed before an error stays. -/
def repairLoop (call : RepairCall) : List TaskRow → Db → ProjectionRepairReport →
    Db × Except ProjectionRepairError ProjectionRepairReport
  | [], db, report => (db, .ok report)
  | seen :: rows, db, report =>
    match call.status seen.instanceId with
    | none => (db, .error .client)
    | some status =>
      match repairUpdate codec seen status call.occurredAt with
      | none => repairLoop call rows db ⟨report.inspected + 1, report.repaired⟩
      | some update =>
        match projectTask fromStr jsonValid db update with
        | .error error => (db, .error (.projection error))
        | .ok (db, outcome) => repairLoop call rows db (report.add outcome)

/-- `repair_terminal_task_projections`. -/
def repairTerminalTaskProjections (limit : ℕ) (db : Db) (call : RepairCall) :
    Db × Except ProjectionRepairError ProjectionRepairReport :=
  let rows := repairRows limit db
  repairLoop codec fromStr jsonValid call rows (repairMark db (rows.map TaskRow.id)
    call.occurredAt) ⟨0, 0⟩

/-- The tables after calls with one limit. -/
def repairs (limit : ℕ) (db : Db) (calls : List RepairCall) : Db :=
  calls.foldl (fun db call =>
    (repairTerminalTaskProjections codec fromStr jsonValid limit db call).1) db

/-! ### What the calls meet -/

/-- The workflow of the task has ended. -/
def Ended (call : RepairCall) (row : TaskRow) : Prop :=
  ∃ status, call.status row.instanceId = some status ∧ repairedTerminal codec status ≠ none

/-- `project_task` accepts the end of the workflow of a task. -/
structure Projectable (db : Db) (row : TaskRow) (update : ProjectionUpdate) : Prop where
  state : update.state ≠ ""
  detail : update.detailJson.all fromStr = true ∧ update.detailJson.all jsonValid = true
  range : row.projectionGeneration + 1 ≤ i64Max ∧ row.observedRetryCount ≤ i64Max
  sequence : lookup EventRow.key db.events (row.id, row.projectionGeneration + 1) = none

/-- The call gets past the task: the query about it has an answer, and if its workflow has ended,
that can be projected. -/
def GetsPast (call : RepairCall) (db : Db) (row : TaskRow) : Prop :=
  ∃ status, call.status row.instanceId = some status
    ∧ ∀ update, repairUpdate codec row status call.occurredAt = some update →
      Projectable fromStr jsonValid db row update

/-- The call gets to every task of its batch whose workflow has ended. -/
def GetsToEnded (limit : ℕ) (call : RepairCall) (db : Db) : Prop :=
  ∀ before row after, repairRows limit db = before ++ row :: after → Ended codec call row →
    ∀ row' ∈ before ++ [row], GetsPast codec fromStr jsonValid call db row'

/-- The task with an identifier is terminal. -/
def IsTerminal (db : Db) (id : Id) : Prop := ∃ row, db.task id = some row ∧ row.terminalAt ≠ none

/-- The times of the calls increase, and those of earlier calls, which are in the rows, lie before
them. -/
def Increasing (db : Db) (calls : List RepairCall) : Prop :=
  calls.Pairwise (fun call later => call.occurredAt < later.occurredAt)
    ∧ ∀ row ∈ db.tasks, ∀ checkedAt, row.repairCheckedAt = some checkedAt →
      ∀ call ∈ calls, checkedAt < call.occurredAt

end

/-! ### One call -/

/-- The mark of a task that is not terminal. -/
def marked (occurredAt : ℤ) (row : TaskRow) : TaskRow :=
  if row.terminalAt = none then { row with repairCheckedAt := some occurredAt } else row

theorem repairMark_tasks (ids : List Id) (occurredAt : ℤ) (db : Db) :
    (repairMark db ids occurredAt).tasks
        = db.tasks.map (fun row => if row.id ∈ ids then marked occurredAt row else row)
      ∧ (repairMark db ids occurredAt).events = db.events := by
  induction ids generalizing db with
  | nil => simp [repairMark]
  | cons id ids ih =>
    have hstep : repairMark db (id :: ids) occurredAt
        = repairMark (db.updateTask id (marked occurredAt)) ids occurredAt := rfl
    obtain ⟨htasks, hevents⟩ := ih (db.updateTask id (marked occurredAt))
    refine ⟨?_, by rw [hstep, hevents]; rfl⟩
    rw [hstep, htasks, Db.updateTask, updateKey, List.map_map]
    refine List.map_congr_left fun row _ => ?_
    have hid : (marked occurredAt row).id = row.id := by
      unfold marked
      split_ifs <;> rfl
    have htwice : marked occurredAt (marked occurredAt row) = marked occurredAt row := by
      unfold marked
      split_ifs <;> rfl
    simp only [Function.comp, List.mem_cons]
    by_cases hrow : row.id = id
    · simp only [hrow, if_true, true_or, hid]
      split_ifs
      · exact htwice
      · rfl
    · simp [hrow]

section

variable {codec : RepairCodec} {fromStr jsonValid : String → Bool} {call : RepairCall}

/-- A row before and after the loop over the rows with some identifiers: it is left alone, or it is
one of these and has become terminal. -/
structure Handled (ids : List Id) (row row' : TaskRow) : Prop where
  id : row'.id = row.id
  checkedAt : row'.repairCheckedAt = row.repairCheckedAt
  same : row' = row ∨ row.id ∈ ids ∧ row'.terminalAt ≠ none

theorem Handled.trans {ids : List Id} {row row' row'' : TaskRow} (h : Handled ids row row')
    (h' : Handled ids row' row'') : Handled ids row row'' := by
  refine ⟨h'.id.trans h.id, h'.checkedAt.trans h.checkedAt, ?_⟩
  rcases h'.same with rfl | ⟨hmem, hterminal⟩
  · exact h.same
  · exact .inr ⟨h.id ▸ hmem, hterminal⟩

theorem Handled.mono {ids ids' : List Id} {row row' : TaskRow} (h : Handled ids row row')
    (hids : ids ⊆ ids') : Handled ids' row row' :=
  ⟨h.id, h.checkedAt, h.same.imp_right fun hsame => ⟨hids hsame.1, hsame.2⟩⟩

/-- The rows of a table are handled in place. -/
def HandledAll (ids : List Id) (db db' : Db) : Prop :=
  ∃ f, db'.tasks = db.tasks.map f ∧ ∀ row, Handled ids row (f row)

theorem HandledAll.refl (ids : List Id) (db : Db) : HandledAll ids db db :=
  ⟨id, by simp, fun _ => ⟨rfl, rfl, .inl rfl⟩⟩

theorem HandledAll.trans {ids : List Id} {db db' db'' : Db} (h : HandledAll ids db db')
    (h' : HandledAll ids db' db'') : HandledAll ids db db'' := by
  obtain ⟨f, hf, hrows⟩ := h
  obtain ⟨g, hg, hrows'⟩ := h'
  refine ⟨g ∘ f, by rw [hg, hf, List.map_map], fun row => (hrows row).trans (hrows' (f row))⟩

theorem handledAll_projectTask {db db' : Db} {update : ProjectionUpdate}
    {outcome : ProjectionOutcome} {ids : List Id} (hterminal : update.terminal = true)
    (hmem : update.taskId ∈ ids)
    (h : projectTask fromStr jsonValid db update = .ok (db', outcome)) : HandledAll ids db db' := by
  rcases projectTask_eq_ok h with rfl | ⟨row, -, -, -, -, rfl⟩
  · exact .refl ids _
  · refine ⟨_, rfl, fun row' => ?_⟩
    split_ifs with hid
    · exact ⟨rfl, rfl, .inr ⟨hid ▸ hmem, by simp [ProjectionUpdate.apply, hterminal]⟩⟩
    · exact ⟨rfl, rfl, .inl rfl⟩

theorem repairUpdate_eq_some {seen : TaskRow} {status : OrchestrationStatus}
    {update : ProjectionUpdate} {occurredAt : ℤ}
    (h : repairUpdate codec seen status occurredAt = some update) :
    update.taskId = seen.id ∧ update.expectedGeneration = seen.projectionGeneration
      ∧ update.observedRetryCount = seen.observedRetryCount ∧ update.terminal = true := by
  unfold repairUpdate at h
  obtain ⟨⟨state, reason, detail⟩, -, rfl⟩ := Option.map_eq_some_iff.mp h
  exact ⟨rfl, rfl, rfl, rfl⟩

/-- The first row of the loop: the call stops at it, or it goes on with the rows behind it. -/
theorem repairLoop_cases (seen : TaskRow) (rows : List TaskRow) (db : Db)
    (report : ProjectionRepairReport) :
    (∃ e, repairLoop codec fromStr jsonValid call (seen :: rows) db report = (db, .error e)
        ∧ ∀ status, call.status seen.instanceId = some status →
          ∃ update e, repairUpdate codec seen status call.occurredAt = some update
            ∧ projectTask fromStr jsonValid db update = .error e)
      ∨ ∃ status db' report', call.status seen.instanceId = some status
        ∧ repairLoop codec fromStr jsonValid call (seen :: rows) db report
          = repairLoop codec fromStr jsonValid call rows db' report'
        ∧ (repairUpdate codec seen status call.occurredAt = none ∧ db' = db
          ∨ ∃ update outcome, repairUpdate codec seen status call.occurredAt = some update
            ∧ projectTask fromStr jsonValid db update = .ok (db', outcome)) := by
  rw [repairLoop]
  cases hstatus : call.status seen.instanceId with
  | none => exact .inl ⟨.client, rfl, fun status h => by cases h⟩
  | some status =>
    cases hupdate : repairUpdate codec seen status call.occurredAt with
    | none =>
      exact .inr ⟨status, db, ⟨report.inspected + 1, report.repaired⟩, rfl, by simp only [hupdate],
        .inl ⟨hupdate, rfl⟩⟩
    | some update =>
      cases hproject : projectTask fromStr jsonValid db update with
      | error e =>
        refine .inl ⟨.projection e, by simp only [hupdate, hproject], fun status' hstatus' => ?_⟩
        obtain rfl := Option.some_inj.mp hstatus'
        exact ⟨update, e, hupdate, hproject⟩
      | ok result =>
        obtain ⟨db', outcome⟩ := result
        exact .inr ⟨status, db', report.add outcome, rfl, by simp only [hupdate, hproject],
          .inr ⟨update, outcome, hupdate, hproject⟩⟩

/-- **The loop** handles the rows that it is given and no others. -/
theorem handledAll_repairLoop (rows : List TaskRow) (db : Db) (report : ProjectionRepairReport) :
    HandledAll (rows.map TaskRow.id) db (repairLoop codec fromStr jsonValid call
      rows db report).1 := by
  induction rows generalizing db report with
  | nil => exact .refl _ db
  | cons seen rows ih =>
    rcases repairLoop_cases seen rows db report with ⟨e, hstop, -⟩ | ⟨status, db', report',
      -, hgoes, hfirst⟩
    · rw [hstop]
      exact .refl _ db
    · obtain ⟨f, hf, hrows⟩ := ih db' report'
      have hrest : HandledAll ((seen :: rows).map TaskRow.id) db'
          (repairLoop codec fromStr jsonValid call rows db' report').1 :=
        ⟨f, hf, fun row => (hrows row).mono (List.subset_cons_self _ _)⟩
      rw [hgoes]
      rcases hfirst with ⟨-, rfl⟩ | ⟨update, outcome, hupdate, hproject⟩
      · exact hrest
      · obtain ⟨hid, -, -, hterminal⟩ := repairUpdate_eq_some hupdate
        exact (handledAll_projectTask hterminal (by simp [hid]) hproject).trans hrest

/-- A task and its events in the tables as the batch has read them, apart from the mark. -/
structure AsSeen (db₀ db : Db) (seen : TaskRow) : Prop where
  row : ∃ row, db.task seen.id = some row ∧ row.terminalAt = none
    ∧ row.projectionGeneration = seen.projectionGeneration
  events : ∀ sequence, lookup EventRow.key db.events (seen.id, sequence)
    = lookup EventRow.key db₀.events (seen.id, sequence)

theorem AsSeen.projectTask {db₀ db db' : Db} {seen : TaskRow} (h : AsSeen db₀ db seen)
    {update : ProjectionUpdate} {outcome : ProjectionOutcome} (hne : update.taskId ≠ seen.id)
    (hproject : projectTask fromStr jsonValid db update = .ok (db', outcome)) :
      AsSeen db₀ db' seen := by
  rcases projectTask_eq_ok hproject with rfl | ⟨row, -, -, -, -, rfl⟩
  · exact h
  · obtain ⟨row', hrow', hterminal, hgeneration⟩ := h.row
    refine ⟨⟨row', ?_, hterminal, hgeneration⟩, fun sequence => ?_⟩
    · have htask := Db.task_updateTask (update.apply (row.projectionGeneration + 1))
        (fun _ => rfl) db
        update.taskId seen.id
      rw [if_neg hne.symm] at htask
      exact htask.trans hrow'
    · rw [lookup_append, lookup_singleton, if_neg, Option.or_none, h.events]
      intro hkey
      exact hne (congrArg Prod.fst hkey)

/-- `project_task` makes a task terminal that is as it has been seen. -/
theorem AsSeen.projected {db₀ db : Db} {seen : TaskRow} (h : AsSeen db₀ db seen)
    {update : ProjectionUpdate} {status : OrchestrationStatus}
    (hupdate : repairUpdate codec seen status call.occurredAt = some update)
    (hprojectable : Projectable fromStr jsonValid db₀ seen update) :
    ∃ db' outcome, TaskProjection.projectTask fromStr jsonValid db update = .ok (db', outcome)
      ∧ IsTerminal db' seen.id := by
  obtain ⟨hid, hgeneration, hretries, hterminal⟩ := repairUpdate_eq_some hupdate
  obtain ⟨row, hrow, hopen, hrowGeneration⟩ := h.row
  have hvalid : validate fromStr update = .ok () := by
    rw [validate, if_neg hprojectable.state, if_pos hprojectable.detail.1]
  have happlied :=
    projectTask_applied hvalid (hid ▸ hrow) (hrowGeneration.trans hgeneration.symm) hopen
    (by rw [hrowGeneration, hretries]; exact hprojectable.range)
    (by rw [hid, hrowGeneration, h.events]; exact hprojectable.sequence) hprojectable.detail.2
  refine ⟨_, _, happlied, update.apply (row.projectionGeneration + 1) row, ?_, ?_⟩
  · have htask := Db.task_updateTask (update.apply (row.projectionGeneration + 1)) (fun _ => rfl) db
      update.taskId seen.id
    rw [if_pos hid.symm, hrow] at htask
    exact htask
  · simp [ProjectionUpdate.apply, hterminal]

theorem HandledAll.task {ids : List Id} {db db' : Db} (h : HandledAll ids db db')
    {id : Id} {row : TaskRow} (hrow : db.task id = some row) : ∃ row', db'.task id = some row'
      ∧ Handled ids row row' := by
  obtain ⟨f, hf, hrows⟩ := h
  refine ⟨f row, ?_, hrows row⟩
  rw [Db.task, hf, lookup_map fun row => (hrows row).id]
  exact congrArg (Option.map f) hrow

theorem HandledAll.isTerminal {ids : List Id} {db db' : Db} (h : HandledAll ids db db') {id : Id}
    (hterminal : IsTerminal db id) : IsTerminal db' id := by
  obtain ⟨row, hrow, hne⟩ := hterminal
  obtain ⟨row', hrow', hhandled⟩ := h.task hrow
  refine ⟨row', hrow', ?_⟩
  rcases hhandled.same with rfl | ⟨-, hterminal'⟩
  · exact hne
  · exact hterminal'

/-- A row that the call gets past, and that is as it has been seen, does not stop the loop. -/
theorem goes_of_getsPast {db₀ db : Db} {seen : TaskRow} (h : AsSeen db₀ db seen)
    (hpast : GetsPast codec fromStr jsonValid call db₀ seen) (rows : List TaskRow)
    (report : ProjectionRepairReport) :
    ∃ db' report', repairLoop codec fromStr jsonValid call (seen :: rows) db report
        = repairLoop codec fromStr jsonValid call rows db' report'
      ∧ (Ended codec call seen → IsTerminal db' seen.id)
      ∧ ∀ row, row.id ≠ seen.id → AsSeen db₀ db row → AsSeen db₀ db' row := by
  obtain ⟨status, hstatus, hprojectable⟩ := hpast
  rcases repairLoop_cases seen rows db report with ⟨e, -, hstop⟩ | ⟨status', db', report',
    hstatus', hgoes, hfirst⟩
  · obtain ⟨update, e, hupdate, hproject⟩ := hstop status hstatus
    obtain ⟨db', outcome, hok, -⟩ := h.projected hupdate (hprojectable update hupdate)
    rw [hok] at hproject
    cases hproject
  · obtain rfl := Option.some_inj.mp (hstatus.symm.trans hstatus')
    refine ⟨db', report', hgoes, ?_, ?_⟩
    · rintro ⟨status', hstatus', hended⟩
      obtain rfl := Option.some_inj.mp (hstatus.symm.trans hstatus')
      rcases hfirst with ⟨hnone, -⟩ | ⟨update, outcome, hupdate, hproject⟩
      · exact absurd (Option.map_eq_none_iff.mp hnone) hended
      · obtain ⟨db'', outcome', hok, hterminal⟩ := h.projected hupdate (hprojectable update hupdate)
        obtain ⟨rfl, rfl⟩ := Prod.mk.inj (Except.ok.inj (hok.symm.trans hproject))
        exact hterminal
    · intro row hne hrow
      rcases hfirst with ⟨-, rfl⟩ | ⟨update, outcome, hupdate, hproject⟩
      · exact hrow
      · refine hrow.projectTask ?_ hproject
        rw [(repairUpdate_eq_some hupdate).1]
        exact hne.symm

/-- **The loop gets to a task** if it gets past those before it. -/
theorem isTerminal_repairLoop {db₀ : Db} (before : List TaskRow) (seen : TaskRow)
    (after : List TaskRow) (db : Db) (report : ProjectionRepairReport)
    (hdistinct : ((before ++ [seen]).map TaskRow.id).Nodup)
    (hpast : ∀ row ∈ before ++ [seen], GetsPast codec fromStr jsonValid call db₀ row)
    (hseen : ∀ row ∈ before ++ [seen], AsSeen db₀ db row) (hended : Ended codec call seen) :
    IsTerminal (repairLoop codec fromStr jsonValid call (before ++ seen :: after) db
      report).1 seen.id := by
  induction before generalizing db report with
  | nil =>
    obtain ⟨db', report', hgoes, hterminal, -⟩ :=
      goes_of_getsPast (hseen seen (by simp)) (hpast seen (by simp)) after report
    rw [List.nil_append, hgoes]
    exact (handledAll_repairLoop after db' report').isTerminal (hterminal hended)
  | cons first before ih =>
    obtain ⟨db', report', hgoes, -, hkept⟩ :=
      goes_of_getsPast (hseen first (by simp)) (hpast first (by simp)) (before
        ++ seen :: after) report
    have hdistinct := List.nodup_cons.mp hdistinct
    rw [List.cons_append, hgoes]
    refine ih db' report' hdistinct.2 (fun row hrow => hpast row (List.mem_cons_of_mem _ hrow))
      fun row hrow => ?_
    refine hkept row (fun heq => hdistinct.1 ?_) (hseen row (List.mem_cons_of_mem _ hrow))
    rw [← heq]
    exact List.mem_map_of_mem hrow

/-! ### The tasks ahead of another -/

/-- The tasks that are not terminal and that the query lists before a row. -/
def ahead (db : Db) (row : TaskRow) : ℕ := (openTasks db).countP (repairOrder · < repairOrder row)

theorem nodup_repairOrder {db : Db} (hids : UniqueKey TaskRow.id db.tasks) :
    ((openTasks db).map repairOrder).Nodup := by
  have hopen : ((openTasks db).map TaskRow.id).Nodup := hids.sublist (List.filter_sublist.map _)
  rw [List.Nodup, List.pairwise_map] at hopen ⊢
  refine hopen.imp fun hne heq => hne ?_
  have hlast : (repairOrder _).2.2.2 = (repairOrder _).2.2.2 := congrArg (fun key => key.2.2.2) heq
  exact BitVec.eq_of_toNat_eq hlast

/-- A row before and after a call with a batch: a row outside of it is left alone, and one in it is
marked or terminal. -/
structure Called (rows : List TaskRow) (occurredAt : ℤ) (row row' : TaskRow) : Prop where
  id : row'.id = row.id
  checkedAt : row'.repairCheckedAt = row.repairCheckedAt ∨ row'.repairCheckedAt = some occurredAt
  outside : row.id ∉ rows.map TaskRow.id → row' = row
  inside : row ∈ rows → row.terminalAt = none → row'.terminalAt = none →
    row'.repairCheckedAt = some occurredAt

/-- **What a call does** to the tasks. -/
theorem called_repair (limit : ℕ) (db : Db) (call : RepairCall) :
    ∃ f, (repairTerminalTaskProjections codec fromStr jsonValid limit db call).1.tasks =
      db.tasks.map f
      ∧ ∀ row, Called (repairRows limit db) call.occurredAt row (f row) := by
  set rows := repairRows limit db with hrows
  have hmark := (repairMark_tasks (rows.map TaskRow.id) call.occurredAt db).1
  obtain ⟨f, hf, hhandled⟩ := @handledAll_repairLoop codec fromStr jsonValid call rows
    (repairMark db (rows.map TaskRow.id) call.occurredAt) ⟨0, 0⟩
  rw [hmark, List.map_map] at hf
  refine ⟨_, hf, fun row => ?_⟩
  simp only [Function.comp]
  split_ifs with hmem
  · have h := hhandled (marked call.occurredAt row)
    refine ⟨?_, ?_, fun hnot => absurd hmem hnot, fun _ hopen _ => ?_⟩
    · rw [h.id]
      unfold marked
      split_ifs <;> rfl
    · rw [h.checkedAt]
      unfold marked
      split_ifs
      · exact .inr rfl
      · exact .inl rfl
    · rw [h.checkedAt, marked, if_pos hopen]
  · have h := hhandled row
    have hsame : f row = row := h.same.resolve_right fun hin => hmem hin.1
    rw [hsame]
    exact ⟨rfl, .inl rfl, fun _ => rfl, fun hin => absurd (List.mem_map_of_mem hin) hmem⟩

theorem mem_openTasks {db : Db} {row : TaskRow} :
    row ∈ openTasks db ↔ row ∈ db.tasks ∧ row.terminalAt = none := by
  simp [openTasks]

theorem mem_of_mem_repairRows {db : Db} {limit : ℕ} {row : TaskRow}
    (h : row ∈ repairRows limit db) :
    row ∈ openTasks db := mem_of_mem_take_insertionSort h

theorem nodup_repairRows {db : Db} (hids : UniqueKey TaskRow.id db.tasks) (limit : ℕ) :
    ((repairRows limit db).map TaskRow.id).Nodup :=
  nodup_take_insertionSort (hids.sublist (List.filter_sublist.map _)) repairOrder _

/-- A task of the batch whose workflow has ended is terminal after the call. -/
theorem isTerminal_of_mem_batch {db : Db} (hids : UniqueKey TaskRow.id db.tasks)
    {limit : ℕ} {row : TaskRow} (hrow : row ∈ repairRows limit db) (hended : Ended codec call row)
    (hgets : GetsToEnded codec fromStr jsonValid limit call db) :
    IsTerminal (repairTerminalTaskProjections codec fromStr jsonValid limit db call).1 row.id := by
  obtain ⟨before, after, hsplit⟩ := List.append_of_mem hrow
  have hdistinct : ((before ++ [row]).map TaskRow.id).Nodup := by
    have hnodup := nodup_repairRows hids limit
    rw [hsplit, List.append_cons] at hnodup
    exact hnodup.sublist ((List.sublist_append_left _ _).map _)
  obtain ⟨htasks, hevents⟩ :=
    repairMark_tasks ((repairRows limit db).map TaskRow.id) call.occurredAt db
  have hseen : ∀ seen ∈ before ++ [row],
      AsSeen db (repairMark db ((repairRows limit db).map TaskRow.id) call.occurredAt) seen := by
    intro seen hseen
    have hbatch : seen ∈ repairRows limit db := by
      rw [hsplit, List.append_cons]
      exact List.mem_append_left _ hseen
    obtain ⟨hmem, hopen⟩ := mem_openTasks.mp (mem_of_mem_repairRows hbatch)
    refine ⟨⟨marked call.occurredAt seen, ?_, by simp [marked, hopen], by simp [marked, hopen]⟩,
      fun sequence => by rw [hevents]⟩
    rw [Db.task, htasks, lookup_map, hids.lookup_of_mem hmem rfl, Option.map_some,
      if_pos (List.mem_map_of_mem hbatch)]
    intro other
    unfold marked
    split_ifs <;> rfl
  unfold repairTerminalTaskProjections
  rw [hsplit] at hseen ⊢
  exact isTerminal_repairLoop before row after _ _ hdistinct (hgets before row after hsplit
    hended) hseen hended

theorem ahead_eq (db : Db) (row : TaskRow) :
    ahead db row = db.tasks.countP fun other => other.terminalAt = none
      ∧ repairOrder other < repairOrder row := by
  rw [ahead, openTasks, List.countP_filter]
  exact List.countP_congr fun other _ => by simp [and_comm]

/-- A marked task is behind every task that was checked before. -/
theorem not_ahead_of_checked {row other : TaskRow} {occurredAt : ℤ}
    (hrow : ∀ checkedAt, row.repairCheckedAt = some checkedAt → checkedAt < occurredAt)
    (hother : other.repairCheckedAt = some occurredAt) : ¬ repairOrder other < repairOrder row := by
  unfold repairOrder
  rw [hother]
  cases hchecked : row.repairCheckedAt with
  | none => simp [Prod.Lex.lt_iff]
  | some checkedAt =>
    have hlt := hrow checkedAt hchecked
    simp [Prod.Lex.lt_iff]
    omega

/-- **One call**: a task whose workflow has ended becomes terminal, or it is left alone with fewer
tasks ahead of it. -/
theorem repair_step {db : Db} (hids : UniqueKey TaskRow.id db.tasks) {limit : ℕ}
    (hlimit : 1 ≤ limit)
    (hchecked : ∀ row ∈ db.tasks, ∀ checkedAt, row.repairCheckedAt = some checkedAt →
      checkedAt < call.occurredAt)
    (hgets : GetsToEnded codec fromStr jsonValid limit call db) {row : TaskRow}
    (hrow : row ∈ openTasks db) (hended : Ended codec call row) :
    IsTerminal (repairTerminalTaskProjections codec fromStr jsonValid limit db call).1 row.id
      ∨ row ∈ openTasks (repairTerminalTaskProjections codec fromStr jsonValid limit db call).1
        ∧ ahead (repairTerminalTaskProjections codec fromStr jsonValid limit db call).1
          row < ahead db row := by
  by_cases hbatch : row ∈ repairRows limit db
  · exact .inl (isTerminal_of_mem_batch hids hbatch hended hgets)
  · right
    obtain ⟨f, htasks, hcalled⟩ := @called_repair codec fromStr jsonValid limit db call
    obtain ⟨hmem, hopen⟩ := mem_openTasks.mp hrow
    have houtside : ∀ other ∈ db.tasks, other ∉ repairRows limit db → f other = other := by
      intro other hother hnot
      refine (hcalled other).outside fun hid => hnot ?_
      obtain ⟨other', hother', heq⟩ := List.mem_map.mp hid
      have hmem' := (mem_openTasks.mp (mem_of_mem_repairRows hother')).1
      rwa [← List.inj_on_of_nodup_map hids hmem' hother heq]
    have hsame : f row = row := houtside row hmem hbatch
    refine ⟨mem_openTasks.mpr ⟨?_, hopen⟩, ?_⟩
    · rw [htasks, List.mem_map]
      exact ⟨row, hmem, hsame⟩
    · -- What is ahead after the call was ahead before it, and the first of the batch no longer is.
      rw [ahead_eq, ahead_eq, htasks, List.countP_map]
      have hkey := nodup_repairOrder hids
      have hnonempty : repairRows limit db ≠ [] :=
        take_insertionSort_ne_nil (le_min hlimit (by decide)) hrow
      obtain ⟨first, hfirst⟩ := List.exists_mem_of_ne_nil _ hnonempty
      have hlt := lt_of_notMem_take hkey hfirst hrow hbatch
      obtain ⟨hfirstMem, hfirstOpen⟩ := mem_openTasks.mp (mem_of_mem_repairRows hfirst)
      have hbehind : ∀ other ∈ repairRows limit db, (f other).terminalAt = none →
          ¬ repairOrder (f other) < repairOrder row := by
        intro other hother hopen'
        have hotherOpen := (mem_openTasks.mp (mem_of_mem_repairRows hother)).2
        exact not_ahead_of_checked (hchecked row hmem) ((hcalled other).inside hother
          hotherOpen hopen')
      refine countP_lt (fun other hother hahead => ?_) hfirstMem ?_ ?_
      · simp only [Function.comp, decide_eq_true_eq] at hahead ⊢
        by_cases hin : other ∈ repairRows limit db
        · exact absurd hahead.2 (hbehind other hin hahead.1)
        · rwa [houtside other hother hin] at hahead
      · simp only [Function.comp, decide_eq_false_iff_not, not_and]
        exact hbehind first hfirst
      · simpa using ⟨hfirstOpen, hlt⟩

/-! ### Runs -/

theorem unique_repair {db : Db} (hids : UniqueKey TaskRow.id db.tasks) (limit : ℕ)
    (call : RepairCall) :
    UniqueKey TaskRow.id (repairTerminalTaskProjections codec fromStr jsonValid limit
      db call).1.tasks := by
  obtain ⟨f, htasks, hcalled⟩ := @called_repair codec fromStr jsonValid limit db call
  refine hids.of_map_eq ?_
  rw [htasks, List.map_map]
  exact List.map_congr_left fun row _ => (hcalled row).id

theorem isTerminal_repair {db : Db} (hids : UniqueKey TaskRow.id db.tasks) (limit : ℕ)
    (call : RepairCall) {id : Id} (h : IsTerminal db id) :
    IsTerminal (repairTerminalTaskProjections codec fromStr jsonValid limit db call).1 id := by
  obtain ⟨row, hrow, hterminal⟩ := h
  obtain ⟨hmem, rfl⟩ := lookup_eq_some_mem hrow
  obtain ⟨f, htasks, hcalled⟩ := @called_repair codec fromStr jsonValid limit db call
  have hsame : f row = row := by
    refine (hcalled row).outside fun hid => ?_
    obtain ⟨other, hother, heq⟩ := List.mem_map.mp hid
    obtain ⟨hotherMem, hopen⟩ := mem_openTasks.mp (mem_of_mem_repairRows hother)
    rw [List.inj_on_of_nodup_map hids hotherMem hmem heq] at hopen
    exact hterminal hopen
  refine ⟨row, ?_, hterminal⟩
  rw [Db.task, htasks, lookup_map fun row => (hcalled row).id, ← Db.task, hrow,
    Option.map_some, hsame]

theorem Increasing.tail {db : Db} {calls : List RepairCall}
    (h : Increasing db (call :: calls)) (limit : ℕ) :
    Increasing (repairTerminalTaskProjections codec fromStr jsonValid limit db call).1 calls := by
  obtain ⟨hfirst, hlater⟩ := List.pairwise_cons.mp h.1
  refine ⟨hlater, fun row' hrow' checkedAt hchecked later hmem => ?_⟩
  obtain ⟨f, htasks, hcalled⟩ := @called_repair codec fromStr jsonValid limit db call
  rw [htasks] at hrow'
  obtain ⟨row, hrow, rfl⟩ := List.mem_map.mp hrow'
  rcases (hcalled row).checkedAt with hold | hnew
  · exact h.2 row hrow checkedAt (hold ▸ hchecked) later (List.mem_cons_of_mem _ hmem)
  · obtain rfl := Option.some_inj.mp (hnew.symm.trans hchecked)
    exact hfirst later hmem

/-- A task becomes terminal within one call more than there are tasks ahead of it. -/
theorem isTerminal_repairs {limit : ℕ} (hlimit : 1 ≤ limit) {row : TaskRow}
    (calls : List RepairCall) {db : Db} (hids : UniqueKey TaskRow.id db.tasks)
    (hincreasing : Increasing db calls)
    (hgets : ∀ before call after, calls = before ++ call :: after →
      GetsToEnded codec fromStr jsonValid limit call
        (repairs codec fromStr jsonValid limit db before))
    (hended : ∀ call ∈ calls, Ended codec call row)
    (hrow : IsTerminal db row.id ∨ row ∈ openTasks db ∧ ahead db row < calls.length) :
    IsTerminal (repairs codec fromStr jsonValid limit db calls) row.id := by
  induction calls generalizing db with
  | nil => exact hrow.resolve_right fun h => by simp at h
  | cons call calls ih =>
    refine ih (unique_repair hids limit call) (hincreasing.tail limit)
      (fun before call' after heq => ?_)
      (fun call' hcall' => hended call' (List.mem_cons_of_mem _ hcall')) ?_
    · exact hgets (call :: before) call' after (by rw [heq]; rfl)
    · rcases hrow with hterminal | ⟨hopen, hahead⟩
      · exact .inl (isTerminal_repair hids limit call hterminal)
      · have hstep := repair_step hids hlimit
          (fun row hrow checkedAt hchecked =>
            hincreasing.2 row hrow checkedAt hchecked call (by simp))
          (hgets [] call calls rfl) hopen (hended call (by simp))
        refine hstep.imp_right fun h => ⟨h.1, ?_⟩
        rw [List.length_cons] at hahead
        exact h.2.trans_le (Nat.le_of_lt_succ hahead)

end

/-- **Repair.** In as many calls as there are open tasks, every task whose workflow has ended
becomes terminal, if every call gets to the tasks of its batch whose workflows have ended. -/
theorem repair_not_starved (codec : RepairCodec) (fromStr jsonValid : String → Bool)
    (limit : ℕ) (db : Db) (calls : List RepairCall) (hlimit : 1 ≤ limit)
    (hids : UniqueKey TaskRow.id db.tasks) (hincreasing : Increasing db calls)
    (hcalls : (openTasks db).length ≤ calls.length)
    (hgets : ∀ before call after, calls = before ++ call :: after →
      GetsToEnded codec fromStr jsonValid limit call
        (repairs codec fromStr jsonValid limit db before)) :
    ∀ row ∈ openTasks db, (∀ call ∈ calls, Ended codec call row) →
      IsTerminal (repairs codec fromStr jsonValid limit db calls) row.id := by
  intro row hrow hended
  refine isTerminal_repairs hlimit calls hids hincreasing hgets hended (.inr ⟨hrow, ?_⟩)
  have hahead : ahead db row < (openTasks db).length := by
    refine List.countP_lt_length_iff.mpr ⟨row, hrow, ?_⟩
    simp
  omega

/-! ### A task that hides another -/

instance (fromStr jsonValid : String → Bool) (db : Db) (row : TaskRow) (update : ProjectionUpdate) :
    Decidable (Projectable fromStr jsonValid db row update) :=
  decidable_of_iff (update.state ≠ "" ∧ (update.detailJson.all fromStr = true
    ∧ update.detailJson.all jsonValid = true)
      ∧ (row.projectionGeneration + 1 ≤ i64Max ∧ row.observedRetryCount ≤ i64Max)
      ∧ lookup EventRow.key db.events (row.id, row.projectionGeneration + 1) = none)
    ⟨fun h => ⟨h.1, h.2.1, h.2.2.1, h.2.2.2⟩, fun h => ⟨h.state, h.detail, h.range, h.sequence⟩⟩

instance (codec : RepairCodec) (fromStr jsonValid : String → Bool) (call : RepairCall) (db : Db)
    (row : TaskRow) : Decidable (GetsPast codec fromStr jsonValid call db row) :=
  decidable_of_iff ((call.status row.instanceId).any (fun status =>
      (repairUpdate codec row status call.occurredAt).all fun update =>
        Projectable fromStr jsonValid db row update) = true)
    (by simp [GetsPast, Option.any_eq_true, Option.all_eq_true])

instance (codec : RepairCodec) (call : RepairCall) (row : TaskRow) :
    Decidable (Ended codec call row) :=
  decidable_of_iff ((call.status row.instanceId).any (fun status =>
    (repairedTerminal codec status).isSome) = true)
    (by simp [Ended, Option.any_eq_true, Option.isSome_iff_ne_none])

/-- A task with a workflow. -/
def sampleTask (id : Id) (instanceId : String) (updatedAt : ℤ) : TaskRow where
  id
  kind := "search"
  state := "running"
  projectionGeneration := 0
  instanceId
  executionId := none
  policySnapshotId := 0
  reasonCode := none
  lastErrorClass := none
  lastErrorMessage := none
  observedRetryCount := 0
  createdAt := 0
  updatedAt
  terminalAt := none
  repairCheckedAt := none

/-- Two tasks: the engine cannot tell the status of the first one, and the workflow of the second
one has ended. -/
def sampleDb : Db := { Db.empty with tasks := [sampleTask 1 "broken" 1, sampleTask 2 "ended" 2] }

/-- A codec to which every output is unknown. -/
def sampleCodec : RepairCodec where
  outputField _ _ := none
  permanentReason _ := none
  completedDetailJson := "\x7b\"source\":\"duroxide_projection_repair\"\x7d"
  failedDetailJson _ := "\x7b\"source\":\"duroxide_projection_repair\"\x7d"

/-- A repair in which only one workflow has ended. -/
def sampleCall (occurredAt : ℤ) : RepairCall where
  occurredAt
  status instanceId := if instanceId = "ended" then some (.completed "null") else none

theorem increasing_sample : Increasing sampleDb [sampleCall 10, sampleCall 20] := by
  refine ⟨by simp [sampleCall], fun row hrow checkedAt hchecked => ?_⟩
  rcases List.mem_pair.mp hrow with rfl | rfl <;> cases hchecked

/-- A batch of two: both calls stop at the first task, which comes first again after the mark. -/
theorem sample_starved :
    Increasing sampleDb [sampleCall 10, sampleCall 20]
      ∧ (openTasks sampleDb).length = [sampleCall 10, sampleCall 20].length
      ∧ (∀ call ∈ [sampleCall 10, sampleCall 20], Ended sampleCodec call (sampleTask 2 "ended" 2))
      ∧ ¬ IsTerminal (repairs sampleCodec (fun _ => true) (fun _ => true) 2 sampleDb
        [sampleCall 10, sampleCall 20]) 2 := by
  have hrow : ((repairs sampleCodec (fun _ => true) (fun _ => true) 2 sampleDb
      [sampleCall 10, sampleCall 20]).task 2).map TaskRow.terminalAt =
        some none := by decide +kernel
  refine ⟨increasing_sample, by decide +kernel, by decide +kernel, ?_⟩
  rintro ⟨row, htask, hterminal⟩
  rw [htask] at hrow
  exact hterminal (Option.some_inj.mp hrow)

/-- With batches of one, a call gets to the only task of its batch. -/
theorem getsToEnded_one {codec : RepairCodec} {fromStr jsonValid : String → Bool}
    {call : RepairCall} {db : Db}
    (h : ∀ row ∈ repairRows 1 db, Ended codec call row →
    GetsPast codec fromStr jsonValid call db row) :
    GetsToEnded codec fromStr jsonValid 1 call db := by
  intro before row after hrows hended row' hrow'
  have hlength : (repairRows 1 db).length ≤ 1 := by
    rw [repairRows, List.length_take]
    exact (min_le_left _ _).trans (min_le_left _ _)
  rw [hrows, List.length_append, List.length_cons] at hlength
  obtain rfl : before = [] := List.length_eq_zero_iff.mp (by omega)
  obtain rfl : row' = row := by simpa using hrow'
  exact h row' (by rw [hrows]; simp) hended

/-- Batches of one, for the same two tasks. -/
theorem repair_not_starved_sample :
    IsTerminal (repairs sampleCodec (fun _ => true) (fun _ => true) 1 sampleDb [sampleCall 10,
      sampleCall 20]) 2 := by
  refine repair_not_starved sampleCodec (fun _ => true)
    (fun _ => true) 1 sampleDb [sampleCall 10, sampleCall 20]
    le_rfl (by unfold UniqueKey; decide +kernel) increasing_sample (by decide +kernel) ?_
      (sampleTask 2 "ended" 2) (by decide +kernel)
    (by decide +kernel)
  intro before call after hcalls
  refine getsToEnded_one ?_
  match before, hcalls with
  | [], hcalls =>
    obtain rfl : sampleCall 10 = call := (List.cons.inj hcalls).1
    decide +kernel
  | [_], hcalls =>
    obtain ⟨rfl, hrest⟩ := List.cons.inj hcalls
    obtain rfl : sampleCall 20 = call := (List.cons.inj hrest).1
    decide +kernel
  | _ :: _ :: _, hcalls => simp at hcalls

end Sporos.Service.ProjectionRepair

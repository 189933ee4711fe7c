import Sporos.Service.Writers

/-! # Terminal tasks

All the writers of `sporos_task`, in any order. The writers that compare the generation or ask for
`terminal_at IS NULL` leave a terminal task alone. The others (`finish` of the search and of the
data scan, `produce_page`, `scan_page`, and `project_completion` at generation 0) overwrite it. -/

namespace Sporos.Service.Terminal

open Sporos.Service.Duroxide
open Sporos.Service.Tables
open Sporos.Service.Ingress
open Sporos.Service.TaskProjection
open Sporos.Service.TaskControl
open Sporos.Service.Writers
open Sporos.Lib.Table
open Sporos.Lib.Loop

/-! ### Operations -/

/-- An operation on the tasks. Where the source reads a row before the transaction that writes it,
the row that was read is an argument, which may be of any earlier time. -/
inductive Op where
  | accept (t : NewTask)
  | project (update : ProjectionUpdate)
  | repairMark (ids : List Id) (occurredAt : ℤ)
  | repair (seen : TaskRow) (status : OrchestrationStatus) (occurredAt : ℤ)
  | cancel (taskId : Id) (now : ℤ)
  | terminal (taskId : Id) (state reason : String) (now : ℤ)
  | retry (taskId : Id) (now : ℤ)
  | completion (taskId : Id) (tasks : List NewTask) (detailJson : String) (observedAt : ℤ)
  | candidate (seen : Option TaskRow) (taskId : Id) (state : String) (reasonCode : Option String)
      (isTerminal : Bool) (detailJson : String) (now : ℤ)
  | markSearching (taskId : Id) (now : ℤ)
  | wait (taskId : Id) (reason : String) (now : ℤ)
  | searchFinish (taskId : Id) (now : ℤ) (reason : String) (failed : Bool)
  | producePage (taskId : Id) (tasks : List NewTask) (done : Bool) (now : ℤ)
  | scanPage (taskId : Id) (tasks : List NewTask) (now : ℤ)
  | scanFinish (taskId : Id) (now : ℤ) (reason : String) (failed : Bool)

/-- The tables after a transaction: an error rolls it back. -/
def committed {ε : Type} (db : Db) : Except ε Db → Db
  | .error _ => db
  | .ok db' => db'

/-- The encoders and decoders of the operations. -/
structure Codecs where
  fromStr : String → Bool
  control : ControlCodec
  repair : RepairCodec

section

variable (codecs : Codecs)

/-- The tables after an operation. -/
def Op.step (db : Db) : Op → Db
  | .accept t => committed db ((acceptTask codecs.control.jsonValid db t).map (·.1))
  | .project update =>
    committed db ((projectTask codecs.fromStr codecs.control.jsonValid db update).map (·.1))
  | .repairMark ids occurredAt => TaskProjection.repairMark db ids occurredAt
  | .repair seen status occurredAt =>
    committed db (repairTask codecs.repair codecs.fromStr codecs.control.jsonValid db seen status
      occurredAt)
  | .cancel taskId now => committed db ((requestCancel codecs.control db taskId now).map (·.1))
  | .terminal taskId state reason now =>
    committed db (recordTerminal codecs.control db taskId state reason now)
  | .retry taskId now => committed db ((TaskControl.retry codecs.control db taskId now).map (·.1))
  | .completion taskId tasks detailJson observedAt =>
    committed db (projectCompletion codecs.control.jsonValid db taskId tasks detailJson observedAt)
  | .candidate seen taskId state reasonCode isTerminal detailJson now =>
    committed db (projectCandidateTask codecs.fromStr codecs.control.jsonValid db seen taskId state
      reasonCode isTerminal detailJson now)
  | .markSearching taskId now => Writers.markSearching db taskId now
  | .wait taskId reason now => Writers.wait db taskId reason now
  | .searchFinish taskId now reason failed => Writers.searchFinish db taskId now reason failed
  | .producePage taskId tasks done now =>
    committed db (Writers.producePage codecs.control.jsonValid db taskId tasks done now)
  | .scanPage taskId tasks now =>
    committed db (Writers.scanPage codecs.control.jsonValid db taskId tasks now)
  | .scanFinish taskId now reason failed => Writers.scanFinish db taskId now reason failed

/-- The tables after some operations. -/
def runOps (db : Db) (ops : List Op) : Db := ops.foldl (Op.step codecs) db

/-- A condition on the row of a task, if there is one and it is terminal. -/
def IfTerminal (db : Db) (taskId : Id) (P : TaskRow → Prop) : Prop :=
  ∀ row, db.task taskId = some row → row.terminalAt ≠ none → P row

/-- If an unguarded writer commits and its task is terminal, then the task has the state that is
written; and a page of a backfill is the last one. -/
def Harmless (db : Db) : Op → Prop
  | .completion taskId tasks detailJson _ =>
    (acceptAll codecs.control.jsonValid db tasks).isOk = true →
      codecs.control.jsonValid detailJson = true →
      IfTerminal db taskId fun row => row.projectionGeneration = 0 → row.state = "completed"
  | .searchFinish taskId _ _ failed =>
    IfTerminal db taskId fun row => row.state = finishedState failed
  | .producePage taskId tasks done _ =>
    (acceptAll codecs.control.jsonValid db tasks).isOk = true →
      IfTerminal db taskId fun row => done = true ∧ row.state = "completed"
  | .scanPage taskId tasks _ =>
    (acceptAll codecs.control.jsonValid db tasks).isOk = true →
      IfTerminal db taskId fun row => row.state = "running"
  | .scanFinish taskId _ _ failed =>
    IfTerminal db taskId fun row => row.state = finishedState failed
  | _ => True

end

/-- Tasks that are terminal stay terminal, with their state. -/
def KeepsTerminal (db db' : Db) : Prop :=
  ∀ id row, db.task id = some row → row.terminalAt ≠ none →
    ∃ row', db'.task id = some row' ∧ row'.terminalAt ≠ none ∧ row'.state = row.state

/-! ### Updates of one row -/

theorem KeepsTerminal.refl (db : Db) : KeepsTerminal db db :=
  fun _ row hrow hterminal => ⟨row, hrow, hterminal, rfl⟩

theorem KeepsTerminal.trans {db₁ db₂ db₃ : Db} (h : KeepsTerminal db₁ db₂)
    (h' : KeepsTerminal db₂ db₃) : KeepsTerminal db₁ db₃ := by
  intro id row hrow hterminal
  obtain ⟨row₁, hrow₁, hterminal₁, hstate₁⟩ := h id row hrow hterminal
  obtain ⟨row₂, hrow₂, hterminal₂, hstate₂⟩ := h' id row₁ hrow₁ hterminal₁
  exact ⟨row₂, hrow₂, hterminal₂, hstate₂.trans hstate₁⟩

/-- Tables that have all the rows of the tasks of other tables. -/
def KeepsTasks (db db' : Db) : Prop := ∀ id row, db.task id = some row → db'.task id = some row

/-- The update of one row keeps terminal tasks if and only if it does so on that row. -/
theorem keepsTerminal_updateTask {db db' : Db} (hkeeps : KeepsTasks db db') (taskId : Id)
    (f : TaskRow → TaskRow) (hid : ∀ row, (f row).id = row.id) :
    KeepsTerminal db (db'.updateTask taskId f)
      ↔ IfTerminal db taskId fun row => (f row).terminalAt ≠ none ∧ (f row).state = row.state := by
  constructor
  · intro h row hrow hterminal
    obtain ⟨row', hrow', hterminal', hstate'⟩ := h taskId row hrow hterminal
    rw [Db.task_updateTask f hid, if_pos rfl, hkeeps taskId row hrow, Option.map_some,
      Option.some_inj] at hrow'
    rw [hrow']
    exact ⟨hterminal', hstate'⟩
  · intro h id row hrow hterminal
    rw [Db.task_updateTask f hid, hkeeps id row hrow]
    by_cases heq : id = taskId
    · subst heq
      exact ⟨f row, by simp, h row hrow hterminal⟩
    · exact ⟨row, by simp [heq], hterminal, rfl⟩

theorem KeepsTasks.refl (db : Db) : KeepsTasks db db := fun _ _ h => h

theorem keepsTasks_of_acceptedIn {jsonValid : String → Bool} {db db' : Db} {t : NewTask}
    {inserted : Bool} (h : AcceptedIn jsonValid db t db' inserted) : KeepsTasks db db' := by
  intro id row hrow
  rcases h.result with ⟨-, rfl⟩ | ⟨-, -, -, rfl⟩ <;> exact lookup_insertOrIgnore_of_some hrow

theorem keepsTasks_of_acceptAll {jsonValid : String → Bool} {tasks : List NewTask} {db db' : Db}
    (h : acceptAll jsonValid db tasks = .ok db') : KeepsTasks db db' := by
  induction tasks generalizing db with
  | nil =>
    obtain rfl : db = db' := by simpa [acceptAll, pure, Except.pure] using h
    exact KeepsTasks.refl db
  | cons t tasks ih =>
    rw [acceptAll, List.foldlM_cons] at h
    obtain ⟨db₁, hfirst, hrest⟩ := bind_eq_ok.mp h
    cases hin : acceptTaskIn jsonValid db t with
    | error e => rw [hin] at hfirst; cases hfirst
    | ok result =>
      obtain ⟨db₂, inserted⟩ := result
      obtain rfl : db₂ = db₁ := by rw [hin] at hfirst; simpa [Except.map] using hfirst
      intro id row hrow
      exact ih hrest id row (keepsTasks_of_acceptedIn (acceptTaskIn_eq_ok hin) id row hrow)

/-! ### Guarded writers -/

section

variable {fromStr jsonValid : String → Bool} {db db' : Db} {taskId : Id}

/-- The update of a task that is not terminal. -/
theorem keepsTerminal_of_open {row : TaskRow} (hrow : db.task taskId = some row)
    (hopen : row.terminalAt = none) (f : TaskRow → TaskRow) (hid : ∀ row, (f row).id = row.id) :
    KeepsTerminal db (db.updateTask taskId f) := by
  rw [keepsTerminal_updateTask (KeepsTasks.refl db) taskId f hid]
  intro row' hrow' hterminal
  rw [hrow, Option.some_inj] at hrow'
  exact absurd (hrow' ▸ hopen) hterminal

/-- `WHERE terminal_at IS NULL`. -/
theorem keepsTerminal_updateOpenTask (db : Db) (taskId : Id) (f : TaskRow → TaskRow)
    (hid : ∀ row, (f row).id = row.id) : KeepsTerminal db (updateOpenTask db taskId f) := by
  refine (keepsTerminal_updateTask (KeepsTasks.refl db) taskId _ fun row => ?_).mpr ?_
  · split_ifs
    · exact hid row
    · rfl
  · intro row _ hterminal
    rw [if_neg hterminal]
    exact ⟨hterminal, rfl⟩

theorem keepsTerminal_committed {ε : Type} {result : Except ε Db}
    (h : ∀ db', result = .ok db' → KeepsTerminal db db') :
      KeepsTerminal db (committed db result) := by
  cases result with
  | error e => exact KeepsTerminal.refl db
  | ok db' => exact h db' rfl

theorem keepsTerminal_projectTask {update : ProjectionUpdate}
    (h : (projectTask fromStr jsonValid db update).map (·.1) = .ok db') : KeepsTerminal db db' := by
  obtain ⟨⟨db₁, outcome⟩, hproject, rfl⟩ := map_eq_ok h
  rcases projectTask_eq_ok hproject with rfl | ⟨row, hrow, hopen, -, -, rfl⟩
  · exact KeepsTerminal.refl _
  · exact keepsTerminal_of_open hrow hopen (update.apply _) fun _ => rfl

theorem keepsTerminal_repairMark (ids : List Id) (occurredAt : ℤ) (db : Db) :
    KeepsTerminal db (repairMark db ids occurredAt) := by
  induction ids generalizing db with
  | nil => exact KeepsTerminal.refl db
  | cons id ids ih =>
    have hfirst := keepsTerminal_updateOpenTask db id
      (fun row => { row with repairCheckedAt := some occurredAt }) fun _ => rfl
    exact hfirst.trans (ih _)

theorem keepsTerminal_requestCancel {codec : ControlCodec} {now : ℤ}
    (h : (requestCancel codec db taskId now).map (·.1) = .ok db') : KeepsTerminal db db' := by
  obtain ⟨⟨db₁, accepted⟩, hcancel, rfl⟩ := map_eq_ok h
  obtain ⟨row, hrow, hopen, ⟨-, rfl⟩ | ⟨-, hwrite⟩⟩ := requestCancel_eq_ok hcancel
  · exact KeepsTerminal.refl _
  · obtain ⟨-, -, -, rfl⟩ := write_eq_some hwrite
    exact keepsTerminal_of_open hrow hopen (cancelRow _ _) fun _ => rfl

theorem keepsTerminal_recordTerminal {codec : ControlCodec} {state reason : String} {now : ℤ}
    (h : recordTerminal codec db taskId state reason now = .ok db') : KeepsTerminal db db' := by
  rcases recordTerminal_eq_ok h with rfl | ⟨row, hrow, -, hopen, -, rfl⟩
  · exact KeepsTerminal.refl _
  · exact keepsTerminal_of_open hrow hopen (terminalRow _ _ _ _) fun _ => rfl

end

/-! ### Unguarded writers -/

section

variable {jsonValid : String → Bool} {db : Db} {taskId : Id} {tasks : List NewTask}

/-- A page that accepts tasks and then updates a row. -/
theorem keepsTerminal_page (f : TaskRow → TaskRow) (hid : ∀ row, (f row).id = row.id) :
    KeepsTerminal db (committed db ((acceptAll jsonValid db tasks).map (·.updateTask taskId f)))
      ↔ ((acceptAll jsonValid db tasks).isOk = true →
        IfTerminal db taskId fun row => (f row).terminalAt ≠ none ∧ (f row).state = row.state) := by
  cases haccept : acceptAll jsonValid db tasks with
  | error e => simp [committed, Except.map, Except.isOk, Except.toBool, KeepsTerminal.refl]
  | ok db' =>
    simp only [committed, Except.map, Except.isOk, Except.toBool, forall_const]
    exact keepsTerminal_updateTask (keepsTasks_of_acceptAll haccept) taskId f hid

theorem completionRow_id (observedAt : ℤ) (row : TaskRow) :
    (completionRow observedAt row).id = row.id := by
  unfold completionRow
  split_ifs <;> rfl

theorem keepsTerminal_projectCompletion {detailJson : String} {observedAt : ℤ} :
    KeepsTerminal db
        (committed db (projectCompletion jsonValid db taskId tasks detailJson observedAt))
      ↔ ((acceptAll jsonValid db tasks).isOk = true → jsonValid detailJson = true →
        IfTerminal db taskId fun row => row.projectionGeneration = 0 →
          row.state = "completed") := by
  cases haccept : acceptAll jsonValid db tasks with
  | error e =>
    simp [projectCompletion, haccept, bind, Except.bind, committed, Except.isOk, Except.toBool,
      KeepsTerminal.refl]
  | ok db' =>
    by_cases hjson : jsonValid detailJson = true
    · cases htask : db'.task taskId with
      | none =>
        have hmissing : ∀ row, db.task taskId ≠ some row := by
          intro row hrow
          rw [keepsTasks_of_acceptAll haccept taskId row hrow] at htask
          cases htask
        simp [projectCompletion, haccept, bind, Except.bind, projectCompletionIn, htask, committed,
          KeepsTerminal.refl, IfTerminal, hmissing]
      | some _ =>
        have hstep := keepsTerminal_updateTask (keepsTasks_of_acceptAll haccept) taskId
          (completionRow observedAt) (completionRow_id observedAt)
        simp only [projectCompletion, haccept, bind, Except.bind, projectCompletionIn, hjson, htask,
          Option.isSome_some, and_self, if_true, committed, Except.isOk,
          Except.toBool, forall_const]
        refine Iff.trans hstep ?_
        refine forall_congr' fun row => imp_congr_right fun _ => imp_congr_right fun hterminal => ?_
        by_cases hgeneration : row.projectionGeneration = 0
        · simp [completionRow, hgeneration, eq_comm]
        · simp [completionRow, hgeneration, hterminal]
    · simp [projectCompletion, haccept, bind, Except.bind, projectCompletionIn, hjson, committed,
        KeepsTerminal.refl]

end

/-- An operation other than a retry keeps terminal tasks if and only if it is harmless. -/
theorem step_keepsTerminal_iff (codecs : Codecs) (db : Db) (op : Op)
    (hretry : ∀ taskId now, op ≠ .retry taskId now) :
    KeepsTerminal db (op.step codecs db) ↔ Harmless codecs db op := by
  cases op with
  | accept t =>
    refine iff_of_true (keepsTerminal_committed fun db' h => ?_) trivial
    obtain ⟨⟨db₁, accepted⟩, haccept, rfl⟩ := map_eq_ok h
    intro id row hrow hterminal
    exact ⟨row, keepsTasks_of_acceptedIn (acceptTask_eq_ok haccept) id row hrow, hterminal, rfl⟩
  | project update =>
    exact iff_of_true (keepsTerminal_committed fun db' h => keepsTerminal_projectTask h) trivial
  | repairMark ids occurredAt =>
    exact iff_of_true (keepsTerminal_repairMark ids occurredAt db) trivial
  | repair seen status occurredAt =>
    refine iff_of_true (keepsTerminal_committed fun db' h => ?_) trivial
    unfold repairTask at h
    split at h
    · obtain rfl : db = db' := by simpa using h
      exact KeepsTerminal.refl db
    · exact keepsTerminal_projectTask h
  | cancel taskId now =>
    exact iff_of_true (keepsTerminal_committed fun db' h => keepsTerminal_requestCancel h) trivial
  | terminal taskId state reason now =>
    exact iff_of_true (keepsTerminal_committed fun db' h => keepsTerminal_recordTerminal h) trivial
  | retry taskId now => exact absurd rfl (hretry taskId now)
  | completion taskId tasks detailJson observedAt => exact keepsTerminal_projectCompletion
  | candidate seen taskId state reasonCode isTerminal detailJson now =>
    refine iff_of_true (keepsTerminal_committed fun db' h => ?_) trivial
    unfold projectCandidateTask at h
    split at h
    · obtain rfl : db = db' := by simpa using h
      exact KeepsTerminal.refl db
    · exact keepsTerminal_projectTask h
  | markSearching taskId now =>
    exact iff_of_true (keepsTerminal_updateOpenTask db taskId _ fun _ => rfl) trivial
  | wait taskId reason now =>
    exact iff_of_true (keepsTerminal_updateOpenTask db taskId _ fun _ => rfl) trivial
  | searchFinish taskId now reason failed =>
    refine (keepsTerminal_updateTask (KeepsTasks.refl db) taskId (finishedRow now reason failed)
      fun _ => rfl).trans ?_
    simp [IfTerminal, Harmless, finishedRow, eq_comm]
  | producePage taskId tasks done now =>
    refine (keepsTerminal_page (pageRow done now) fun _ => rfl).trans ?_
    refine imp_congr_right fun _ => forall_congr' fun row => imp_congr_right fun _ =>
      imp_congr_right fun _ => ?_
    cases done with
    | false => simp [pageRow]
    | true => simp [pageRow, eq_comm]
  | scanPage taskId tasks now =>
    refine (keepsTerminal_page (scanRow now) fun _ => rfl).trans ?_
    refine imp_congr_right fun _ => forall_congr' fun row => imp_congr_right fun _ =>
      imp_congr_right fun hterminal => ?_
    simp [scanRow, hterminal, eq_comm]
  | scanFinish taskId now reason failed =>
    refine (keepsTerminal_updateTask (KeepsTasks.refl db) taskId (finishedRow now reason failed)
      fun _ => rfl).trans ?_
    simp [IfTerminal, Harmless, finishedRow, eq_comm]

/-! ### Runs -/

theorem runOps_append (codecs : Codecs) (db : Db) (before after : List Op) :
    runOps codecs db (before ++ after) = runOps codecs (runOps codecs db before) after :=
  List.foldl_append ..

/-- Harmless operations without a retry keep a terminal task, from any tables on. -/
theorem runOps_keepsTerminal (codecs : Codecs) (ops : List Op) (db : Db)
    (hretry : ∀ op ∈ ops, ∀ taskId now, op ≠ .retry taskId now)
    (hharmless : ∀ before op after, ops = before ++ op :: after →
      Harmless codecs (runOps codecs db before) op) : KeepsTerminal db (runOps codecs db ops) := by
  induction ops generalizing db with
  | nil => exact KeepsTerminal.refl db
  | cons op ops ih =>
    have hfirst : KeepsTerminal db (op.step codecs db) :=
      (step_keepsTerminal_iff codecs db op (hretry op (by simp))).mpr (hharmless [] op ops rfl)
    refine hfirst.trans (ih _ (fun op' hop' => hretry op' (by simp [hop'])) ?_)
    rintro before op' after rfl
    exact hharmless (op :: before) op' after rfl

/-- **Terminal tasks stay terminal.** In a run of any operations, every operation other than a retry
keeps `terminal_at` and the state of every terminal task if and only if every operation is harmless
in the tables that it finds. -/
theorem terminal_stable_iff_harmless (codecs : Codecs) (ops : List Op) :
    (∀ before op after, ops = before ++ op :: after → (∀ taskId now, op ≠ .retry taskId now) →
        KeepsTerminal (runOps codecs Db.empty before) (runOps codecs Db.empty (before ++ [op])))
      ↔ ∀ before op after, ops = before ++ op :: after →
        Harmless codecs (runOps codecs Db.empty before) op := by
  have hstep : ∀ before op, runOps codecs Db.empty (before ++ [op])
      = op.step codecs (runOps codecs Db.empty before) := by
    intro before op
    rw [runOps_append]
    rfl
  constructor
  · intro h before op after hops
    by_cases hretry : ∀ taskId now, op ≠ .retry taskId now
    · rw [← step_keepsTerminal_iff codecs _ op hretry, ← hstep]
      exact h before op after hops hretry
    · push Not at hretry
      obtain ⟨taskId, now, rfl⟩ := hretry
      exact trivial
  · intro h before op after hops hretry
    rw [hstep, step_keepsTerminal_iff codecs _ op hretry]
    exact h before op after hops

/-- The encoders, with SHA-256 on the text that the cancellation of `cancelledSearch` hashes. -/
def searchCodecs : Codecs where
  fromStr _ := true
  control := .plain fun _ => 0x6dedc0225eb37e869cc0c9b993cbf6e99db29601f6382c7deb0103d0461e0e36
  repair := ⟨fun _ _ => none, fun _ => none, "null", fun _ => "null"⟩

/-- A search that an operator cancels while its activity is running. -/
def cancelledSearch : List Op :=
  [.accept
    { id := 1
      key := 7
      kind := "search_source_indexer"
      policy := ⟨1, 2, "sporos-matcher/1", "null", 5⟩
      orchestrationName := "SearchSourceIndexer"
      orchestrationVersion := "1.0.0"
      instanceId := "search-v1:1"
      inputJson := "null"
      createdAt := 5 },
    .markSearching 1 6, .cancel 1 7, .terminal 1 "cancelled" "cancelled_by_operator" 8]

/-- The activity finishes, and the cancelled task becomes a completed one. -/
theorem searchFinish_cancelledSearch :
    ((runOps searchCodecs Db.empty cancelledSearch).task 1).map (fun row =>
      (row.state, row.terminalAt))
        = some ("cancelled", some 8)
      ∧ ((runOps searchCodecs Db.empty
          (cancelledSearch ++ [.searchFinish 1 9 "completed" false])).task 1).map
            (fun row => (row.state, row.terminalAt)) = some ("completed", some 9) := by
  decide +kernel

end Sporos.Service.Terminal

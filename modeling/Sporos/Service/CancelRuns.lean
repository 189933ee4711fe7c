import Sporos.Lib.Sha256
import Sporos.Service.Cancellation
import Sporos.Service.Terminal

/-! # Cancellations and the other writers

A request to cancel a task starts a workflow whose reconcile steps look at the instance that the
task had and, once that has ended, make the task terminal. A step may be executed again at any later
time, and the other writers of the task go on. A cancellation is not lost unless one of them
replaces its state (`cancellation_not_lost`), and a step ends the run of its own instance unless the
task has been retried and cancelled again (`reconcile_own_run_iff`). -/

namespace Sporos.Service.CancelRuns

open Sporos.Service.Duroxide
open Sporos.Service.Tables
open Sporos.Service.Ingress
open Sporos.Service.TaskProjection
open Sporos.Service.TaskControl
open Sporos.Service.Writers
open Sporos.Service.Terminal
open Sporos.Service.Cancellation (reconciled)
open Sporos.Lib.Table
open Sporos.Lib.Loop

/-! ### The system -/

/-- `reconcile`, with the status that it has read: whether it is done. -/
def reconcile (codec : ControlCodec) (db : Db) (taskId : Id)
    (status : OrchestrationStatus) (now : ℤ) : Except TaskControlError (Db × Bool) :=
  match reconciled status with
  | none => .ok (db, false)
  | some (state, reason) => (recordTerminal codec db taskId state reason now).map
    fun db => (db, true)

/-- The operations of the writers other than the reconcile steps. No projection writes the state of
a request to cancel. -/
def Genuine : Op → Prop
  | .terminal .. => False
  | .project update => update.state ≠ "cancellation_requested"
  | .candidate _ _ state _ _ _ _ => state ≠ "cancellation_requested"
  | _ => True

/-- The tables, and the requests to cancel that have been accepted: the task and its instance. -/
structure Sys where
  db : Db
  requests : List (Id × String)

/-- No task, and no cancellation workflow. -/
def Sys.init : Sys := ⟨Db.empty, []⟩

/-- A write of the service, or a round of a cancellation workflow. -/
inductive Step where
  | write (op : Op) (genuine : Genuine op)
  | reconcile (taskId : Id) (target : String) (status : OrchestrationStatus) (now : ℤ)

section

variable (codecs : Codecs)

/-- The request that an operation accepts. -/
def accepted (db : Db) : Op → List (Id × String)
  | .cancel taskId now =>
    match requestCancel codecs.control db taskId now with
    | .ok (_, result) => if result.duplicate then [] else [(taskId, result.targetInstance)]
    | .error _ => []
  | _ => []

/-- A reconcile step is one of a request that has been accepted. -/
def Step.apply (sys : Sys) : Step → Sys
  | .write op _ => ⟨op.step codecs sys.db, sys.requests ++ accepted codecs sys.db op⟩
  | .reconcile taskId target status now =>
    if (taskId, target) ∈ sys.requests then
      { sys with
        db :=
        committed sys.db ((CancelRuns.reconcile codecs.control sys.db taskId status
          now).map (·.1)) }
    else sys

/-- The system after some steps. -/
def run (sys : Sys) (steps : List Step) : Sys := steps.foldl (Step.apply codecs) sys

/-- The state before the step with a number. -/
def sysAt (steps : List Step) (n : ℕ) : Sys := run codecs Sys.init (steps.take n)

end

/-- The cancellation of the task is requested and not settled. -/
def Requested (row : TaskRow) : Prop := row.state = "cancellation_requested" ∧ row.terminalAt = none

/-- The cancellation of the task is requested, or the task is terminal. -/
def Closing (row : TaskRow) : Prop := row.state = "cancellation_requested" ∨ row.terminalAt ≠ none

/-- The operation does not replace the requested cancellation of a task by a state that is not
terminal, and does not open the task again when it is terminal. -/
def Safe (db : Db) (taskId : Id) : Op → Prop
  | .project update => update.taskId = taskId → update.terminal = true ∨
    ∀ row, db.task taskId = some row → Requested row →
      row.projectionGeneration ≠ update.expectedGeneration
  | .candidate seen id _ _ isTerminal _ _ => id = taskId → isTerminal = true ∨
    ∀ row, db.task taskId = some row → Requested row →
      ∀ old, seen = some old → row.projectionGeneration ≠ old.projectionGeneration
  | .markSearching id _ => id = taskId → ∀ row, db.task taskId = some row → ¬ Requested row
  | .wait id _ _ => id = taskId → ∀ row, db.task taskId = some row → ¬ Requested row
  | .scanPage id _ _ => id = taskId → ∀ row, db.task taskId = some row → ¬ Requested row
  | .producePage id _ done _ => id = taskId → done = true ∨
    ∀ row, db.task taskId = some row → ¬ Closing row
  | _ => True

/-- The step is safe for a task. -/
def Step.Safe (sys : Sys) (taskId : Id) : Step → Prop
  | .write op _ => CancelRuns.Safe sys.db taskId op
  | .reconcile .. => True

/-! ### What an operation does to the rows -/

/-- A row before and after a projection: the instance stays, no cancellation is requested, and, if
the projection is safe, a requested one is kept or settled. -/
structure Projected (safe : Prop) (row row' : TaskRow) : Prop where
  instanceId : row'.instanceId = row.instanceId
  requested : Requested row' → Requested row
  closing : safe → Closing row → Closing row'

theorem Projected.refl (safe : Prop) (row : TaskRow) : Projected safe row row :=
  ⟨rfl, id, fun _ => id⟩

theorem Projected.trans {safe : Prop} {a b c : TaskRow} (h : Projected safe a b)
    (h' : Projected safe b c) : Projected safe a c :=
  ⟨h'.instanceId.trans h.instanceId, fun hnew => h.requested (h'.requested hnew),
    fun hsafe hclosing => h'.closing hsafe (h.closing hsafe hclosing)⟩

/-- The rows that were there are related to those that are there now; no request is new. -/
structure Moves (R : Id → TaskRow → TaskRow → Prop) (db db' : Db) : Prop where
  rows : ∀ id row, db.task id = some row → ∃ row', db'.task id = some row' ∧ R id row row'
  fresh : ∀ id row', db.task id = none → db'.task id = some row' → ¬ Requested row'

section

variable {R : Id → TaskRow → TaskRow → Prop} {db db' db₁ : Db} {safe : Id → Prop}

theorem Moves.refl (hR : ∀ id row, R id row row) (db : Db) : Moves R db db where
  rows id row hrow := ⟨row, hrow, hR id row⟩
  fresh id row' hnone hsome := by
    rw [hnone] at hsome
    cases hsome

theorem moves_committed {ε : Type} {result : Except ε Db} (hR : ∀ id row, R id row row)
    (h : ∀ db', result = .ok db' → Moves R db db') : Moves R db (committed db result) := by
  cases result with
  | error e => exact .refl hR db
  | ok db' => exact h db' rfl

/-- The update of one row, after tasks have been accepted. -/
theorem Moves.updateTask (h : Moves (fun _ => Eq) db db') (hR : ∀ id row, R id row row)
    (taskId : Id) (f : TaskRow → TaskRow) (hid : ∀ row, (f row).id = row.id)
    (hf : ∀ row, db.task taskId = some row → R taskId row (f row))
    (hfresh : ∀ row, Requested (f row) → Requested row) : Moves R db (db'.updateTask taskId f) where
  rows id row hrow := by
    obtain ⟨row', hrow', rfl⟩ := h.rows id row hrow
    rw [Db.task_updateTask f hid, hrow']
    by_cases heq : id = taskId
    · subst heq
      exact ⟨f row, by simp, hf row hrow⟩
    · exact ⟨row, by simp [heq], hR id row⟩
  fresh id row' hnone hsome := by
    rw [Db.task_updateTask f hid] at hsome
    split at hsome
    · obtain ⟨row, hrow, rfl⟩ := Option.map_eq_some_iff.mp hsome
      exact fun hrequested => h.fresh id row hnone hrow (hfresh row hrequested)
    · exact h.fresh id row' hnone hsome

theorem moves_of_acceptedIn {jsonValid : String → Bool} {t : NewTask} {inserted : Bool}
    (h : AcceptedIn jsonValid db t db' inserted) : Moves (fun _ => Eq) db db' where
  rows id row hrow := ⟨row, keepsTasks_of_acceptedIn h id row hrow, rfl⟩
  fresh id row' hnone hsome := by
    have hmem : row' ∈ insertOrIgnore TaskRow.id db.tasks t.row := by
      rcases h.result with ⟨-, rfl⟩ | ⟨-, -, -, rfl⟩ <;> exact (lookup_eq_some_mem hsome).1
    rcases mem_insertOrIgnore hmem with hold | ⟨rfl, -⟩
    · exact absurd (lookup_eq_some_mem hsome).2 (lookup_eq_none.mp hnone row' hold)
    · rintro ⟨hstate, -⟩
      simp [NewTask.row] at hstate

theorem Moves.trans (hR : ∀ {id a b c}, R id a b → R id b c → R id a c)
    (hrequested : ∀ {id a b}, R id a b → Requested b → Requested a)
    (h : Moves R db db₁) (h' : Moves R db₁ db') : Moves R db db' where
  rows id row hrow := by
    obtain ⟨row₁, hrow₁, hR₁⟩ := h.rows id row hrow
    obtain ⟨row₂, hrow₂, hR₂⟩ := h'.rows id row₁ hrow₁
    exact ⟨row₂, hrow₂, hR hR₁ hR₂⟩
  fresh id row' hnone hsome := by
    cases hmiddle : db₁.task id with
    | none => exact h'.fresh id row' hmiddle hsome
    | some row₁ =>
      obtain ⟨row₂, hrow₂, hR₂⟩ := h'.rows id row₁ hmiddle
      obtain rfl := Option.some_inj.mp (hrow₂.symm.trans hsome)
      exact fun hnew => h.fresh id row₁ hnone hmiddle (hrequested hR₂ hnew)

theorem moves_of_acceptAll {jsonValid : String → Bool} {tasks : List NewTask}
    (h : acceptAll jsonValid db tasks = .ok db') : Moves (fun _ => Eq) db db' := by
  refine foldlM_invariant (P := fun _ db₁ => Moves (fun _ => Eq) db db₁)
    (fun done t db₁ db₂ hmoves haccept => ?_) tasks []
    db db' (.refl (fun _ _ => rfl) db) h
  obtain ⟨⟨db₃, inserted⟩, hin, rfl⟩ := map_eq_ok haccept
  exact .trans Eq.trans (fun heq hnew =>
    heq ▸ hnew) hmoves (moves_of_acceptedIn (acceptTaskIn_eq_ok hin))

/-- A page that accepts tasks and then updates a row. -/
theorem moves_page {jsonValid : String → Bool} {tasks : List NewTask}
    (hR : ∀ id row, R id row row) (taskId : Id) (f : TaskRow → TaskRow)
    (hid : ∀ row, (f row).id = row.id)
    (hf : ∀ row, db.task taskId = some row → R taskId row (f row))
    (hfresh : ∀ row, Requested (f row) → Requested row) :
    Moves R db (committed db ((acceptAll jsonValid db tasks).map (·.updateTask taskId f))) := by
  refine moves_committed hR fun db' h => ?_
  obtain ⟨db₁, haccept, rfl⟩ := map_eq_ok h
  exact (moves_of_acceptAll haccept).updateTask hR taskId f hid hf hfresh

/-- The update of one row. -/
theorem moves_updateTask (hR : ∀ id row, R id row row) (taskId : Id) (f : TaskRow → TaskRow)
    (hid : ∀ row, (f row).id = row.id)
    (hf : ∀ row, db.task taskId = some row → R taskId row (f row)) :
    Moves R db (db.updateTask taskId f) where
  rows id row hrow := by
    rw [Db.task_updateTask f hid, hrow]
    by_cases heq : id = taskId
    · subst heq
      exact ⟨f row, by simp, hf row hrow⟩
    · exact ⟨row, by simp [heq], hR id row⟩
  fresh id row' hnone hsome := by
    rw [Db.task_updateTask f hid, hnone] at hsome
    simp at hsome

/-- `project_task`, with an update that writes another state than that of a request. -/
theorem moves_projectTask {fromStr jsonValid : String → Bool} {update : ProjectionUpdate}
    (hstate : update.terminal = true ∨ update.state ≠ "cancellation_requested")
    (hsafe : safe update.taskId → update.terminal = true ∨ ∀ row,
      db.task update.taskId = some row → Requested row →
      row.projectionGeneration ≠ update.expectedGeneration)
    (h : (projectTask fromStr jsonValid db update).map (·.1) = .ok db') :
      Moves (fun id => Projected (safe id)) db db' := by
  obtain ⟨⟨db₁, outcome⟩, hproject, rfl⟩ := map_eq_ok h
  rcases projectTask_eq_ok hproject with rfl | ⟨row, hrow, hopen, hgeneration, -, rfl⟩
  · exact .refl (fun id => Projected.refl (safe id)) _
  · have hmoves : Moves (fun id => Projected (safe id)) db
        (db.updateTask update.taskId (update.apply (row.projectionGeneration + 1))) := by
      refine moves_updateTask (fun id => Projected.refl (safe id)) update.taskId _
        (fun _ => rfl) fun old hold => ?_
      obtain rfl := Option.some_inj.mp (hrow.symm.trans hold)
      refine ⟨rfl, ?_, fun hs hclosing => ?_⟩
      · rintro ⟨hrequested, hnone⟩
        rcases hstate with hterminal | hne
        · simp [ProjectionUpdate.apply, hterminal] at hnone
        · exact absurd hrequested hne
      · have hrequested : Requested row :=
          ⟨hclosing.resolve_right fun hterminal => hterminal hopen, hopen⟩
        rcases hsafe hs with hterminal | hgenerations
        · exact .inr (by simp [ProjectionUpdate.apply, hterminal])
        · exact absurd hgeneration (hgenerations row hrow hrequested)
    exact ⟨hmoves.rows, hmoves.fresh⟩

theorem moves_updateOpenTask (taskId : Id) (f : TaskRow → TaskRow)
    (hid : ∀ row, (f row).id = row.id)
    (hf : ∀ row, db.task taskId = some row → row.terminalAt = none →
    Projected (safe taskId) row (f row)) :
    Moves (fun id => Projected (safe id)) db (updateOpenTask db taskId f) := by
  refine moves_updateTask (fun id => Projected.refl (safe id)) taskId _ (fun row => ?_)
    fun row hrow => ?_
  · split_ifs
    · exact hid row
    · rfl
  · split_ifs with hopen
    · exact hf row hrow hopen
    · exact .refl (safe taskId) row

/-- A row that becomes terminal, in a state that is not that of a request. -/
theorem projected_of_terminal {safe : Prop} {row row' : TaskRow}
    (hinstance : row'.instanceId = row.instanceId) (hterminal : row'.terminalAt ≠ none) :
      Projected safe row row' :=
  ⟨hinstance, fun hrequested => absurd hrequested.2 hterminal, fun _ _ => .inr hterminal⟩

/-- A row that gets another state, if the cancellation is not requested. -/
theorem projected_of_state {safe : Prop} {row row' : TaskRow}
    (hinstance : row'.instanceId = row.instanceId) (hstate : row'.state ≠ "cancellation_requested")
    (hclosing : safe → Closing row → Closing row') : Projected safe row row' :=
  ⟨hinstance, fun hrequested => absurd hrequested.1 hstate, hclosing⟩

end

section

variable {codecs : Codecs} {db : Db}

theorem moves_completion {taskId : Id} {tasks : List NewTask} {detailJson : String} {observedAt : ℤ}
    {safe : Id → Prop} : Moves (fun id => Projected (safe id)) db
      (committed db (projectCompletion codecs.control.jsonValid db taskId tasks
        detailJson observedAt)) := by
  refine moves_committed (fun id => Projected.refl (safe id)) fun db' h => ?_
  obtain ⟨db₁, haccept, h⟩ := bind_eq_ok.mp h
  unfold projectCompletionIn at h
  split_ifs at h
  obtain rfl := Except.ok.inj h
  have hrow : ∀ row, Projected (safe taskId) row (completionRow observedAt row) := by
    intro row
    unfold completionRow
    split_ifs
    · exact projected_of_terminal rfl (by simp)
    · exact .refl (safe taskId) row
  have hmoves := (moves_of_acceptAll haccept).updateTask (fun id =>
    Projected.refl (safe id)) taskId (completionRow observedAt)
    (completionRow_id observedAt) (fun row _ => hrow row) fun row => (hrow row).requested
  exact ⟨hmoves.rows, hmoves.fresh⟩

theorem moves_repairMark {safe : Id → Prop} (ids : List Id) (occurredAt : ℤ) :
    ∀ db : Db, Moves (fun id => Projected (safe id)) db (repairMark db ids occurredAt) := by
  induction ids with
  | nil => exact .refl (fun id => Projected.refl (safe id))
  | cons id ids ih =>
    intro db
    have hfirst : Moves (fun id => Projected (safe id)) db
        (updateOpenTask db id fun row => { row with repairCheckedAt := some occurredAt }) :=
      moves_updateOpenTask id _ (fun _ => rfl) fun row _ _ => ⟨rfl, fun h => h, fun _ h => h⟩
    exact .trans Projected.trans Projected.requested hfirst (ih _)

/-- **The projections**, whatever they are. -/
theorem moves_step (op : Op) (hgenuine : Genuine op)
    (hcancel : ∀ taskId now, op ≠ .cancel taskId now)
    (hretry : ∀ taskId now, op ≠ .retry taskId now) :
    Moves (fun id => Projected (Safe db id op)) db (op.step codecs db) := by
  have hrefl := fun id => Projected.refl (Safe db id op)
  cases op with
  | accept t =>
    refine moves_committed hrefl fun db' h => ?_
    obtain ⟨⟨db₁, result⟩, haccept, rfl⟩ := map_eq_ok h
    have hmoves := moves_of_acceptedIn (acceptTask_eq_ok haccept)
    refine ⟨fun id row hrow => ?_, hmoves.fresh⟩
    obtain ⟨row', hrow', rfl⟩ := hmoves.rows id row hrow
    exact ⟨row, hrow', hrefl id row⟩
  | project update =>
    exact moves_committed hrefl fun db' h =>
      moves_projectTask (.inr hgenuine) (fun hsafe => hsafe rfl) h
  | repairMark ids occurredAt => exact moves_repairMark ids occurredAt db
  | repair seen status occurredAt =>
    refine moves_committed hrefl fun db' h => ?_
    unfold repairTask repairUpdate at h
    cases hterminal : repairedTerminal codecs.repair status with
    | none =>
      rw [hterminal] at h
      obtain rfl := Except.ok.inj h
      exact .refl hrefl db
    | some result =>
      rw [hterminal] at h
      exact moves_projectTask (.inl rfl) (fun _ => .inl rfl) h
  | cancel taskId now => exact absurd rfl (hcancel taskId now)
  | terminal taskId state reason now => exact hgenuine.elim
  | retry taskId now => exact absurd rfl (hretry taskId now)
  | completion taskId tasks detailJson observedAt => exact moves_completion
  | candidate seen taskId state reasonCode isTerminal detailJson now =>
    refine moves_committed hrefl fun db' h => ?_
    unfold projectCandidateTask candidateUpdate at h
    cases seen with
    | none =>
      obtain rfl := Except.ok.inj h
      exact .refl hrefl db
    | some old =>
      rw [Option.bind_some] at h
      split_ifs at h with hskip
      · obtain rfl := Except.ok.inj h
        exact .refl hrefl db
      · refine moves_projectTask ?_ (fun hsafe => ?_) h
        · exact .inr hgenuine
        · exact (hsafe rfl).imp_right fun hnot row hrow hrequested =>
            hnot row hrow hrequested old rfl
  | markSearching taskId now =>
    refine moves_updateOpenTask taskId _ (fun _ => rfl) fun row hrow hopen => ?_
    refine projected_of_state rfl (by simp) fun hsafe hclosing => ?_
    exact absurd ⟨hclosing.resolve_right fun hterminal => hterminal hopen,
      hopen⟩ (hsafe rfl row hrow)
  | wait taskId reason now =>
    refine moves_updateOpenTask taskId _ (fun _ => rfl) fun row hrow hopen => ?_
    refine projected_of_state rfl (by simp) fun hsafe hclosing => ?_
    exact absurd ⟨hclosing.resolve_right fun hterminal => hterminal hopen,
      hopen⟩ (hsafe rfl row hrow)
  | searchFinish taskId now reason failed =>
    exact moves_updateTask hrefl taskId (finishedRow now reason failed) (fun _ => rfl) fun row _ =>
      projected_of_terminal rfl (by simp [finishedRow])
  | producePage taskId tasks done now =>
    have hstate : ∀ row, (pageRow done now row).state ≠ "cancellation_requested" := by
      intro row
      cases done <;> simp [pageRow]
    refine moves_page hrefl taskId (pageRow done now) (fun _ => rfl) (fun row hrow => ?_)
      fun row hrequested => absurd hrequested.1 (hstate row)
    refine projected_of_state rfl (hstate row) fun hsafe hclosing => ?_
    rcases hsafe rfl with rfl | hopen
    · exact .inr (by simp [pageRow])
    · exact absurd hclosing (hopen row hrow)
  | scanPage taskId tasks now =>
    refine moves_page hrefl taskId (scanRow now) (fun _ => rfl) (fun row hrow => ?_)
      fun row hrequested => ?_
    · refine projected_of_state rfl (by simp [scanRow]) fun hsafe hclosing => ?_
      by_cases hopen : row.terminalAt = none
      · exact absurd ⟨hclosing.resolve_right fun hterminal => hterminal hopen,
          hopen⟩ (hsafe rfl row hrow)
      · exact .inr hopen
    · exact absurd hrequested.1 (by simp [scanRow])
  | scanFinish taskId now reason failed =>
    exact moves_updateTask hrefl taskId (finishedRow now reason failed) (fun _ => rfl) fun row _ =>
      projected_of_terminal rfl (by simp [finishedRow])

end

/-! ### Requests, retries and reconcile steps -/

section

variable {codecs : Codecs} {db db' : Db} {taskId : Id} {now : ℤ}

/-- A request to cancel changes nothing, or it is accepted for the instance of an open task. -/
theorem cancel_cases (codecs : Codecs) (db : Db) (taskId : Id) (now : ℤ) :
    ((Op.cancel taskId now).step codecs db = db ∧ accepted codecs db (.cancel taskId now) = [])
      ∨ ∃ row generation, db.task taskId = some row ∧ row.terminalAt = none
        ∧ accepted codecs db (.cancel taskId now) = [(taskId, row.instanceId)]
        ∧ ((Op.cancel taskId now).step codecs db).tasks
          = (db.updateTask taskId (cancelRow generation now)).tasks := by
  cases hresult : requestCancel codecs.control db taskId now with
  | error e => exact .inl ⟨by simp only [Op.step, hresult]; rfl, by simp only [accepted, hresult]⟩
  | ok result =>
    obtain ⟨db₁, answer⟩ := result
    have hstep : (Op.cancel taskId now).step codecs db = db₁ := by
      simp only [Op.step, hresult]
      rfl
    unfold requestCancel at hresult
    cases hrow : db.task taskId with
    | none => simp [hrow] at hresult
    | some row =>
      simp only [hrow] at hresult
      split_ifs at hresult with hterminal hstate hrange
      · obtain ⟨rfl, rfl⟩ : db = db₁ ∧ _ = answer := by simpa using hresult
        refine .inl ⟨hstep, ?_⟩
        simp [accepted, requestCancel, hrow, hterminal, hstate]
      · split at hresult
        · cases hresult
        · rename_i db₂ hwrite
          obtain ⟨rfl, rfl⟩ : db₂ = db₁ ∧ _ = answer := by simpa using hresult
          refine .inr ⟨row, row.projectionGeneration + 1, rfl, by simpa using hterminal, ?_, ?_⟩
          · simp [accepted, requestCancel, hrow, hterminal, hstate, hrange, hwrite]
          · obtain ⟨-, -, -, hdb⟩ := write_eq_some hwrite
            rw [hstep, hdb]

/-- A retry changes nothing, or it gives a terminal task an instance with a longer name. -/
theorem retry_cases (codecs : Codecs) (db : Db) (taskId : Id) (now : ℤ) :
    (Op.retry taskId now).step codecs db = db
      ∨ ∃ row instanceId generation, db.task taskId = some row ∧ row.instanceId.length <
        instanceId.length
        ∧ ((Op.retry taskId now).step codecs db).tasks
          = (db.updateTask taskId (retryRow instanceId generation now)).tasks := by
  cases hresult : TaskControl.retry codecs.control db taskId now with
  | error e => exact .inl (by simp only [Op.step, hresult]; rfl)
  | ok result =>
    obtain ⟨db₁, instanceId⟩ := result
    obtain ⟨row, start, hrow, hstart, -, -, -, hwrite⟩ := retry_eq_ok hresult
    have hinstance : start.instanceId = row.instanceId := (lookup_eq_some_mem hstart).2
    obtain ⟨-, -, -, hdb⟩ := write_eq_some hwrite
    refine .inr ⟨row, retryInstance start.instanceId (row.projectionGeneration + 1),
      row.projectionGeneration + 1, hrow, ?_, ?_⟩
    · rw [retryInstance, hinstance, String.length_append, String.length_append]
      have hcolon : ":retry:".length = 7 := rfl
      omega
    · have hstep : (Op.retry taskId now).step codecs db = db₁ := by
        simp only [Op.step, hresult]
        rfl
      rw [hstep, hdb]

/-- `record_terminal` settles the cancellation that is requested, and changes no other task. -/
theorem recordTerminal_task {state reason : String} {row : TaskRow}
    (hrow : db.task taskId = some row)
    (h : recordTerminal codecs.control db taskId state reason now = .ok db') :
    (Requested row ∧ ∃ generation,
      db'.tasks = (db.updateTask taskId (terminalRow state reason generation now)).tasks)
      ∨ (¬ Requested row ∧ db' = db) := by
  unfold recordTerminal at h
  simp only [hrow] at h
  split_ifs at h with hstate hrange
  · refine .inr ⟨fun hrequested => ?_, (Except.ok.inj h).symm⟩
    exact hstate.elim (fun hne => hne hrequested.1) fun hterminal => hterminal hrequested.2
  · rw [not_or, not_not, not_not] at hstate
    split at h
    · cases h
    · rename_i db₁ hevent
      obtain rfl := Except.ok.inj h
      obtain ⟨-, rfl⟩ := Db.insertEvent_eq_some hevent
      exact .inl ⟨hstate, _, rfl⟩

/-- A reconcile step that is done has recorded the end. -/
theorem reconcile_done {status : OrchestrationStatus}
    (h : reconcile codecs.control db taskId status now = .ok (db', true)) :
    ∃ state reason, recordTerminal codecs.control db taskId state reason now = .ok db' := by
  unfold reconcile at h
  split at h
  · cases h
  · obtain ⟨db₁, hrecord, heq⟩ := map_eq_ok h
    obtain ⟨rfl, -⟩ := Prod.mk.inj heq
    exact ⟨_, _, hrecord⟩

/-- A reconcile step changes nothing unless it is done. -/
theorem committed_reconcile (codecs : Codecs) (db : Db) (taskId : Id) (now : ℤ)
    (status : OrchestrationStatus) :
    committed db ((reconcile codecs.control db taskId status now).map (·.1)) = db
      ∨ ∃ db', reconcile codecs.control db taskId status now = .ok (db', true)
        ∧ committed db ((reconcile codecs.control db taskId status now).map (·.1)) = db' := by
  cases hresult : reconcile codecs.control db taskId status now with
  | error e => exact .inl rfl
  | ok result =>
    obtain ⟨db', done⟩ := result
    cases done with
    | true => exact .inr ⟨db', rfl, rfl⟩
    | false =>
      left
      unfold reconcile at hresult
      split at hresult
      · obtain ⟨rfl, -⟩ := Prod.mk.inj (Except.ok.inj hresult)
        rfl
      · obtain ⟨db₁, -, heq⟩ := map_eq_ok hresult
        cases (Prod.mk.inj heq).2

theorem moves_of_tasks {R : Id → TaskRow → TaskRow → Prop} {db₁ : Db} (h : Moves R db db₁)
    (htasks : db'.tasks = db₁.tasks) : Moves R db db' := by
  have htask : ∀ id, db'.task id = db₁.task id := fun id => by rw [Db.task, Db.task, htasks]
  refine ⟨fun id row hrow => ?_, fun id row' hnone hsome => ?_⟩
  · rw [htask]
    exact h.rows id row hrow
  · rw [htask] at hsome
    exact h.fresh id row' hnone hsome

theorem moves_reconcile {safe : Id → Prop} (status : OrchestrationStatus) :
    Moves (fun id => Projected (safe id)) db
      (committed db ((reconcile codecs.control db taskId status now).map (·.1))) := by
  rcases committed_reconcile codecs db taskId now status with heq | ⟨db', hdone, heq⟩
  · rw [heq]
    exact .refl (fun id => Projected.refl (safe id)) db
  · rw [heq]
    obtain ⟨state, reason, hrecord⟩ := reconcile_done hdone
    cases hrow : db.task taskId with
    | none =>
      unfold recordTerminal at hrecord
      simp only [hrow] at hrecord
      obtain rfl := Except.ok.inj hrecord
      exact .refl (fun id => Projected.refl (safe id)) db
    | some row =>
      rcases recordTerminal_task hrow hrecord with ⟨-, generation, htasks⟩ | ⟨-, rfl⟩
      · refine moves_of_tasks (moves_updateTask (fun id => Projected.refl (safe id)) taskId
          (terminalRow state reason generation now) (fun _ => rfl) fun row _ => ?_) htasks
        exact projected_of_terminal rfl (by simp [terminalRow])
      · exact .refl (fun id => Projected.refl (safe id)) _

end

/-! ### What holds in every state -/

/-- The instance of the last request that was accepted for a task. -/
def lastTarget (requests : List (Id × String)) (taskId : Id) : Option String :=
  ((requests.filter fun request => request.1 = taskId).getLast?).map Prod.snd

theorem lastTarget_append (requests : List (Id × String)) (request : Id × String) (taskId : Id) :
    lastTarget (requests ++ [request]) taskId
      = if request.1 = taskId then some request.2 else lastTarget requests taskId := by
  unfold lastTarget
  rw [List.filter_append, List.filter_cons, List.filter_nil]
  split <;> simp_all

/-- A cancellation that is requested is that of the last request. -/
def LastRequested (sys : Sys) : Prop :=
  ∀ taskId row, sys.db.task taskId = some row → Requested row →
    lastTarget sys.requests taskId = some row.instanceId

/-- The task of a request has had a retry since, or its cancellation is requested, or it is
terminal. -/
def Pending (taskId : Id) (sys : Sys) : Prop :=
  ∀ target, (taskId, target) ∈ sys.requests → ∃ row, sys.db.task taskId = some row
    ∧ (target.length < row.instanceId.length ∨ (row.instanceId = target ∧ Closing row))

section

variable {codecs : Codecs} {sys : Sys} {db' : Db} {taskId : Id}

theorem LastRequested.moves {safe : Id → Prop} (h : LastRequested sys)
    (hmoves : Moves (fun id => Projected (safe id)) sys.db db') :
    LastRequested ⟨db', sys.requests⟩ := by
  intro taskId row' hrow' hrequested
  cases hrow : sys.db.task taskId with
  | none => exact absurd hrequested (hmoves.fresh taskId row' hrow hrow')
  | some row =>
    obtain ⟨row₁, hrow₁, hprojected⟩ := hmoves.rows taskId row hrow
    obtain rfl := Option.some_inj.mp (hrow₁.symm.trans hrow')
    rw [hprojected.instanceId]
    exact h taskId row hrow (hprojected.requested hrequested)

theorem Pending.moves {safe : Id → Prop} (h : Pending taskId sys)
    (hmoves : Moves (fun id => Projected (safe id)) sys.db db') (hsafe : safe taskId) :
    Pending taskId ⟨db', sys.requests⟩ := by
  intro target hrequest
  obtain ⟨row, hrow, hrow'⟩ := h target hrequest
  obtain ⟨row₁, hrow₁, hprojected⟩ := hmoves.rows taskId row hrow
  refine ⟨row₁, hrow₁, ?_⟩
  rw [hprojected.instanceId]
  exact hrow'.imp_right fun ⟨hinstance, hclosing⟩ => ⟨hinstance, hprojected.closing hsafe hclosing⟩

/-- The row of a task after an update of the row of one. -/
theorem task_of_tasks {db db' : Db} {taskId : Id} {f : TaskRow → TaskRow}
    (htasks : db'.tasks = (db.updateTask taskId f).tasks)
    (hid : ∀ row, (f row).id = row.id) (id : Id) :
    db'.task id = if id = taskId then (db.task id).map f else db.task id := by
  rw [← Db.task_updateTask f hid, Db.task, Db.task, htasks]

/-- What a step does: a projection, the acceptance of a request, or a retry. -/
theorem apply_cases (codecs : Codecs) (sys : Sys) (step : Step) :
    (∃ db', step.apply codecs sys = ⟨db', sys.requests⟩
        ∧ Moves (fun id => Projected (step.Safe sys id)) sys.db db')
      ∨ (∃ db' taskId row f,
        step.apply codecs sys = ⟨db', sys.requests ++ [(taskId, row.instanceId)]⟩
        ∧ sys.db.task taskId = some row ∧ Requested (f row) ∧ (f row).instanceId = row.instanceId
        ∧ ∀ id, db'.task id = if id = taskId then (sys.db.task id).map f else sys.db.task id)
      ∨ ∃ db' taskId row f, step.apply codecs sys = ⟨db', sys.requests⟩
        ∧ sys.db.task taskId = some row
        ∧ ¬ Requested (f row) ∧ row.instanceId.length < (f row).instanceId.length
        ∧ ∀ id, db'.task id = if id = taskId then (sys.db.task id).map f else sys.db.task id := by
  cases step with
  | reconcile taskId target status now =>
    by_cases hrequest : (taskId, target) ∈ sys.requests
    · exact .inl ⟨_, by rw [Step.apply, if_pos hrequest], moves_reconcile status⟩
    · exact .inl ⟨sys.db, by rw [Step.apply, if_neg hrequest],
        .refl (fun _ => Projected.refl _) sys.db⟩
  | write op genuine =>
    by_cases hcancel : ∃ taskId now, op = .cancel taskId now
    · obtain ⟨taskId, now, rfl⟩ := hcancel
      rcases cancel_cases codecs sys.db taskId now with
        ⟨hdb, haccepted⟩ | ⟨row, generation, hrow, hopen, haccepted, htasks⟩
      · refine .inl ⟨sys.db, ?_, .refl (fun _ => Projected.refl _) sys.db⟩
        rw [Step.apply, hdb, haccepted, List.append_nil]
      · refine .inr (.inl ⟨_, taskId, row, cancelRow generation now, by rw [Step.apply,
          haccepted], hrow, ⟨rfl, hopen⟩, rfl, task_of_tasks htasks fun _ => rfl⟩)
    · by_cases hretry : ∃ taskId now, op = .retry taskId now
      · obtain ⟨taskId, now, rfl⟩ := hretry
        have haccepted : accepted codecs sys.db (.retry taskId now) = [] := rfl
        rcases retry_cases codecs sys.db taskId now with
          hdb | ⟨row, instanceId, generation, hrow, hlonger, htasks⟩
        · refine .inl ⟨sys.db, ?_, .refl (fun _ => Projected.refl _) sys.db⟩
          rw [Step.apply, hdb, haccepted, List.append_nil]
        · refine .inr (.inr ⟨_, taskId, row, retryRow instanceId generation now,
            by rw [Step.apply, haccepted, List.append_nil], hrow, ?_, hlonger,
            task_of_tasks htasks fun _ => rfl⟩)
          rintro ⟨hstate, -⟩
          simp [retryRow] at hstate
      · have haccepted : accepted codecs sys.db op = [] := by
          unfold accepted
          split
          · exact absurd ⟨_, _, rfl⟩ hcancel
          · rfl
        refine .inl ⟨op.step codecs sys.db, by rw [Step.apply, haccepted, List.append_nil], ?_⟩
        exact moves_step op genuine (fun taskId now heq => hcancel ⟨taskId, now, heq⟩)
          fun taskId now heq => hretry ⟨taskId, now, heq⟩

theorem lastRequested_apply (h : LastRequested sys) (step : Step) :
    LastRequested (step.apply codecs sys) := by
  rcases apply_cases codecs sys step with ⟨db', heq, hmoves⟩
    | ⟨db', taskId, row, f, heq, hrow, hrequested, hinstance, htask⟩
    | ⟨db', taskId, row, f, heq, hrow, hnot, -, htask⟩
  · rw [heq]
    exact h.moves hmoves
  · rw [heq]
    intro id row' hrow' hrequested'
    rw [htask] at hrow'
    rw [lastTarget_append]
    split at hrow'
    · rename_i hid
      obtain rfl : f row = row' := by simpa [hid, hrow] using hrow'
      rw [if_pos hid.symm, hinstance]
    · rename_i hid
      rw [if_neg fun heq => hid heq.symm]
      exact h id row' hrow' hrequested'
  · rw [heq]
    intro id row' hrow' hrequested'
    rw [htask] at hrow'
    split at hrow'
    · rename_i hid
      obtain rfl : f row = row' := by simpa [hid, hrow] using hrow'
      exact absurd hrequested' hnot
    · exact h id row' hrow' hrequested'

theorem pending_apply (h : Pending taskId sys) {step : Step} (hsafe : step.Safe sys taskId) :
    Pending taskId (step.apply codecs sys) := by
  rcases apply_cases codecs sys step with ⟨db', heq, hmoves⟩
    | ⟨db', id, row, f, heq, hrow, hrequested, hinstance, htask⟩
    | ⟨db', id, row, f, heq, hrow, -, hlonger, htask⟩
  · rw [heq]
    exact h.moves hmoves hsafe
  · rw [heq]
    intro target hrequest
    rw [htask]
    by_cases hid : taskId = id
    · subst hid
      rw [if_pos rfl, hrow]
      refine ⟨f row, rfl, ?_⟩
      rw [hinstance]
      rcases List.mem_append.mp hrequest with hold | hnew
      · obtain ⟨row₁, hrow₁, hrow₁'⟩ := h target hold
        obtain rfl := Option.some_inj.mp (hrow₁.symm.trans hrow)
        exact hrow₁'.imp_right fun hinstance => ⟨hinstance.1, .inl hrequested.1⟩
      · obtain ⟨-, rfl⟩ := Prod.mk.inj (List.mem_singleton.mp hnew)
        exact .inr ⟨rfl, .inl hrequested.1⟩
    · rw [if_neg hid]
      rcases List.mem_append.mp hrequest with hold | hnew
      · exact h target hold
      · exact absurd (Prod.mk.inj (List.mem_singleton.mp hnew)).1 hid
  · rw [heq]
    intro target hrequest
    obtain ⟨row₁, hrow₁, hrow₁'⟩ := h target hrequest
    rw [htask]
    by_cases hid : taskId = id
    · subst hid
      obtain rfl := Option.some_inj.mp (hrow₁.symm.trans hrow)
      rw [if_pos rfl, hrow]
      refine ⟨f row₁, rfl, .inl ?_⟩
      rcases hrow₁' with hshorter | ⟨rfl, -⟩
      · exact hshorter.trans hlonger
      · exact hlonger
    · rw [if_neg hid]
      exact ⟨row₁, hrow₁, hrow₁'⟩

end

/-! ### Runs -/

section

variable (codecs : Codecs) (steps : List Step)

theorem sysAt_succ {n : ℕ} {step : Step} (hstep : steps[n]? = some step) :
    sysAt codecs steps (n + 1) = step.apply codecs (sysAt codecs steps n) := by
  unfold sysAt run
  rw [List.take_add_one, hstep, List.foldl_append]
  rfl

theorem sysAt_of_none {n : ℕ} (hstep : steps[n]? = none) :
    sysAt codecs steps (n + 1) = sysAt codecs steps n := by
  unfold sysAt
  rw [List.take_add_one, hstep, Option.toList_none, List.append_nil]

theorem lastRequested_sysAt (n : ℕ) : LastRequested (sysAt codecs steps n) := by
  induction n with
  | zero =>
    intro taskId row hrow
    cases hrow
  | succ n ih =>
    cases hstep : steps[n]? with
    | none =>
      rw [sysAt_of_none codecs steps hstep]
      exact ih
    | some step =>
      rw [sysAt_succ codecs steps hstep]
      exact lastRequested_apply ih step

theorem pending_sysAt {taskId : Id}
    (hsafe : ∀ n (step : Step), steps[n]? = some step → step.Safe (sysAt codecs steps n) taskId)
    (n : ℕ) : Pending taskId (sysAt codecs steps n) := by
  induction n with
  | zero =>
    intro target hrequest
    cases hrequest
  | succ n ih =>
    cases hstep : steps[n]? with
    | none =>
      rw [sysAt_of_none codecs steps hstep]
      exact ih
    | some step =>
      rw [sysAt_succ codecs steps hstep]
      exact pending_apply ih (hsafe n step hstep)

/-- The tables after a reconcile step that is done. -/
theorem db_of_done {n : ℕ} {taskId : Id} {target : String} {status : OrchestrationStatus}
    {now : ℤ} {db' : Db} (hstep : steps[n]? = some (.reconcile taskId target status now))
    (hrequest : (taskId, target) ∈ (sysAt codecs steps n).requests)
    (hdone : reconcile codecs.control (sysAt codecs steps n).db taskId status now =
      .ok (db', true)) :
    (sysAt codecs steps (n + 1)).db = db' := by
  rw [sysAt_succ codecs steps hstep, Step.apply, if_pos hrequest]
  simp only [hdone]
  rfl

/-- **A cancellation is not lost.** Take a task, and a run in which no writer replaces the requested
cancellation of the task by a state that is not terminal, or opens the task again when it is
terminal; what is written to other tasks does not matter. Then, whenever a reconcile step of the
current instance of the task is done, the task is terminal. -/
theorem cancellation_not_lost (taskId : Id)
    (hsafe : ∀ n (step : Step), steps[n]? = some step → step.Safe (sysAt codecs steps n) taskId)
    (n : ℕ) (target : String) (status : OrchestrationStatus) (now : ℤ) (db' : Db)
    (hstep : steps[n]? = some (.reconcile taskId target status now))
    (hrequest : (taskId, target) ∈ (sysAt codecs steps n).requests)
    (hdone : reconcile codecs.control (sysAt codecs steps n).db taskId status now = .ok (db', true))
    (hcurrent : ((sysAt codecs steps n).db.task taskId).map TaskRow.instanceId = some target) :
    ∃ row, (sysAt codecs steps (n + 1)).db.task taskId = some row ∧ row.terminalAt ≠ none := by
  obtain ⟨row, hrow, hpending⟩ := pending_sysAt codecs steps hsafe n target hrequest
  have hinstance : row.instanceId = target := by
    rw [hrow] at hcurrent
    exact Option.some_inj.mp hcurrent
  have hclosing : Closing row := by
    rcases hpending with hshorter | ⟨-, hclosing⟩
    · rw [hinstance] at hshorter
      exact absurd hshorter (lt_irrefl _)
    · exact hclosing
  rw [db_of_done codecs steps hstep hrequest hdone]
  obtain ⟨state, reason, hrecord⟩ := reconcile_done hdone
  rcases recordTerminal_task hrow hrecord with ⟨-, generation, htasks⟩ | ⟨hnot, rfl⟩
  · refine ⟨terminalRow state reason generation now row, ?_, by simp [terminalRow]⟩
    rw [task_of_tasks htasks (fun _ => rfl), if_pos rfl, hrow]
    rfl
  · refine ⟨row, hrow, fun hopen => hnot ⟨?_, hopen⟩⟩
    exact hclosing.resolve_right fun hterminal => hterminal hopen

/-- **A reconcile step ends its own run.** In every run: the reconcile steps write to a task only
while its instance is their target if, and only if, a step that is done while the cancellation of
its task is requested is one of the last request that was accepted for the task. -/
theorem reconcile_own_run_iff :
    (∀ n taskId target status now, steps[n]? = some (.reconcile taskId target status now) →
        (sysAt codecs steps (n + 1)).db.task taskId ≠ (sysAt codecs steps n).db.task taskId →
        ((sysAt codecs steps n).db.task taskId).map TaskRow.instanceId = some target)
      ↔ ∀ n taskId target status now db' row,
        steps[n]? = some (.reconcile taskId target status now) →
        (taskId, target) ∈ (sysAt codecs steps n).requests →
        reconcile codecs.control (sysAt codecs steps n).db taskId status now = .ok (db', true) →
        (sysAt codecs steps n).db.task taskId = some row → Requested row →
        lastTarget (sysAt codecs steps n).requests taskId = some target := by
  constructor
  · intro hown n taskId target status now db' row hstep hrequest hdone hrow hrequested
    have hlast := lastRequested_sysAt codecs steps n taskId row hrow hrequested
    have hwritten : (sysAt codecs steps (n + 1)).db.task taskId ≠
        (sysAt codecs steps n).db.task taskId := by
      rw [db_of_done codecs steps hstep hrequest hdone]
      obtain ⟨state, reason, hrecord⟩ := reconcile_done hdone
      rcases recordTerminal_task hrow hrecord with ⟨-, generation, htasks⟩ | ⟨hnot, -⟩
      · rw [task_of_tasks htasks (fun _ => rfl), if_pos rfl, hrow]
        intro heq
        have hterminal := congrArg TaskRow.terminalAt (Option.some_inj.mp heq)
        rw [hrequested.2] at hterminal
        cases hterminal
      · exact absurd hrequested hnot
    rw [hlast, ← hown n taskId target status now hstep hwritten, hrow]
    rfl
  · intro hlast n taskId target status now hstep hwritten
    by_cases hrequest : (taskId, target) ∈ (sysAt codecs steps n).requests
    · rw [sysAt_succ codecs steps hstep, Step.apply, if_pos hrequest] at hwritten
      rcases committed_reconcile codecs (sysAt codecs steps n).db taskId now status with heq | ⟨db',
        hdone, heq⟩
      · exact absurd (by rw [heq]) hwritten
      · simp only [heq] at hwritten
        obtain ⟨state, reason, hrecord⟩ := reconcile_done hdone
        rcases recordTerminal_eq_ok hrecord with rfl | ⟨row, hrow, hstate, hopen, -, -⟩
        · exact absurd rfl hwritten
        · have hrequested : Requested row := ⟨hstate, hopen⟩
          rw [← hlast n taskId target status now db' row hstep hrequest hdone hrow hrequested, hrow,
            lastRequested_sysAt codecs steps n taskId row hrow hrequested]
          rfl
    · rw [sysAt_succ codecs steps hstep, Step.apply, if_neg hrequest] at hwritten
      exact absurd rfl hwritten

end

/-! ### A search that is cancelled -/

/-- A task that searches for a source. -/
def searchTask : NewTask where
  id := 1
  key := 7
  kind := "search_source_indexer"
  policy := ⟨1, 2, "sporos-matcher/1", "null", 5⟩
  orchestrationName := "SearchSourceIndexer"
  orchestrationVersion := "1.0.0"
  instanceId := "search-v1:1"
  inputJson := "null"
  createdAt := 5

/-- The codecs with SHA-256. -/
def shaCodecs : Codecs where
  fromStr _ := true
  control := .plain Sporos.Lib.Sha256.sha256
  repair := ⟨fun _ _ => none, fun _ => none, "null", fun _ => "null"⟩

/-- The reconcile step of the first instance, which the engine has cancelled. -/
def searchEnded (now : ℤ) : Step :=
  .reconcile 1 "search-v1:1" (.failed (.application true "operator request")) now

/-- The search is accepted and cancelled. -/
def searchCancelled : List Step :=
  [.write (.accept searchTask) trivial, .write (.cancel 1 7) trivial]

/-- The tables and the requests before the step with a number, from the cancelled search on. -/
def searchAt (steps : List Step) (n : ℕ) : Sys := sysAt shaCodecs (searchCancelled ++ steps) n

/-- The activity of the search goes on and marks it as searching; the reconcile step is done, and
the task is open. -/
theorem cancellation_lost_search :
    (1, "search-v1:1") ∈ (searchAt [.write (.markSearching 1 8) trivial, searchEnded 9] 3).requests
      ∧ ((reconcile shaCodecs.control (searchAt [.write (.markSearching 1 8) trivial,
        searchEnded 9] 3).db 1
          (.failed (.application true "operator request")) 9).toOption.map Prod.snd) = some true
      ∧ ((searchAt [.write (.markSearching 1 8) trivial, searchEnded 9] 3).db.task 1).map
        TaskRow.instanceId
        = some "search-v1:1"
      ∧ ((searchAt [.write (.markSearching 1 8) trivial, searchEnded 9] 4).db.task 1).map
          (fun row => (row.state, row.terminalAt)) = some ("searching", none) := by
  decide +kernel

/-- The cancellation is reconciled before anything else is written. -/
theorem cancellation_not_lost_search :
    ∃ row, (searchAt [searchEnded 9] 3).db.task 1 = some row ∧ row.terminalAt ≠ none := by
  refine cancellation_not_lost shaCodecs (searchCancelled ++ [searchEnded 9]) 1 ?_ 2 "search-v1:1"
    (.failed (.application true "operator request")) 9 (searchAt [searchEnded 9] 3).db rfl
      (by decide +kernel)
    (by decide +kernel) (by decide +kernel)
  intro n step hstep
  have hmem := List.mem_of_getElem? hstep
  simp only [searchCancelled, searchEnded, List.cons_append, List.nil_append, List.mem_cons,
    List.not_mem_nil, or_false] at hmem
  rcases hmem with rfl | rfl | rfl <;> exact trivial

/-- The cancelled search is retried and cancelled again, and the step of the first request is
executed again: it ends the second run, which is not the one that it has looked at. -/
theorem reconcile_ends_other_run :
    ((searchAt [searchEnded 9, .write (.retry 1 10) trivial, .write (.cancel 1 11) trivial,
      searchEnded 12] 5).db.task
        1).map (fun row => (row.instanceId, row.state, row.terminalAt))
      = some ("search-v1:1:retry:3", "cancellation_requested", none)
    ∧ ((searchAt [searchEnded 9, .write (.retry 1 10) trivial, .write (.cancel 1 11) trivial,
      searchEnded 12] 6).db.task
        1).map (fun row => (row.instanceId, row.state, row.terminalAt))
      = some ("search-v1:1:retry:3", "cancelled", some 12) := by
  decide +kernel

end Sporos.Service.CancelRuns

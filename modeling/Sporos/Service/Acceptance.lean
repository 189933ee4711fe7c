import Sporos.Service.TaskControl

/-! # Accepting a task again

The life of a task: acceptance, projections, cancellation and operator retries, in any order. A task
that was accepted is accepted again as a duplicate, and no table changes, exactly if no retry of it
has succeeded in between: a retry writes a new instance to the row of the task, with which
`verify_task` then compares the instance of the request. -/

namespace Sporos.Service.Acceptance

open Sporos.Service.Tables
open Sporos.Service.Ingress
open Sporos.Service.TaskProjection
open Sporos.Service.TaskControl
open Sporos.Lib.Table

/-! ### Operations -/

/-- The operations that write tasks. -/
inductive Op where
  | accept (t : NewTask)
  | project (update : ProjectionUpdate)
  | cancel (taskId : Id) (now : ℤ)
  | terminal (taskId : Id) (state reason : String) (now : ℤ)
  | retry (taskId : Id) (now : ℤ)

section

variable (fromStr : String → Bool) (codec : ControlCodec)

/-- The tables after an operation: an operation that fails is rolled back. -/
def Op.step (db : Db) : Op → Db
  | .accept t =>
    match acceptTask codec.jsonValid db t with
    | .error _ => db
    | .ok (db', _) => db'
  | .project update =>
    match projectTask fromStr codec.jsonValid db update with
    | .error _ => db
    | .ok (db', _) => db'
  | .cancel taskId now =>
    match requestCancel codec db taskId now with
    | .error _ => db
    | .ok (db', _) => db'
  | .terminal taskId state reason now =>
    match recordTerminal codec db taskId state reason now with
    | .error _ => db
    | .ok db' => db'
  | .retry taskId now =>
    match TaskControl.retry codec db taskId now with
    | .error _ => db
    | .ok (db', _) => db'

/-- The tables after a sequence of operations. -/
def runOps (db : Db) (ops : List Op) : Db := ops.foldl (Op.step fromStr codec) db

/-- The operation is a retry of the task, and succeeds. -/
def Retries (db : Db) (taskId : Id) (op : Op) : Prop :=
  ∃ now, op = .retry taskId now ∧ (TaskControl.retry codec db taskId now).isOk = true

/-- No operation of the sequence is a successful retry of the task. -/
def NeverRetried (taskId : Id) : Db → List Op → Prop
  | _, [] => True
  | db, op :: ops => ¬ Retries codec db taskId op
      ∧ NeverRetried taskId (op.step fromStr codec db) ops

end

/-- The same request at another time. -/
def AtTime (t : NewTask) (createdAt policyCreatedAt : ℤ) : NewTask :=
  { t with createdAt, policy := { t.policy with createdAt := policyCreatedAt } }

/-! ### One operation -/

section

variable {fromStr : String → Bool} {codec : ControlCodec}

/-- What no operation takes away. -/
structure Grows (db db' : Db) : Prop where
  policies : db.policies <+: db'.policies
  events : db.events <+: db'.events
  outbox : db.outbox <+: db'.outbox

theorem Grows.refl (db : Db) : Grows db db := ⟨List.prefix_rfl, List.prefix_rfl, List.prefix_rfl⟩

theorem Grows.trans {db₁ db₂ db₃ : Db} (h : Grows db₁ db₂) (h' : Grows db₂ db₃) : Grows db₁ db₃ :=
  ⟨h.policies.trans h'.policies, h.events.trans h'.events, h.outbox.trans h'.outbox⟩

theorem grows_of_write {jsonValid : String → Bool} {db db' : Db} {taskId : Id}
    {f : TaskRow → TaskRow} {start : OutboxRow} {event : EventRow}
    (h : db.write jsonValid taskId f start event = some db') : Grows db db' := by
  obtain ⟨-, -, -, rfl⟩ := write_eq_some h
  exact ⟨List.prefix_rfl, List.prefix_append _ _, List.prefix_append _ _⟩

theorem step_grows (db : Db) (op : Op) : Grows db (op.step fromStr codec db) := by
  cases op with
  | accept t =>
    simp only [Op.step]
    split
    · exact Grows.refl db
    · rename_i db' accepted h
      rcases (acceptTask_eq_ok h).result with ⟨-, rfl⟩ | ⟨-, -, -, rfl⟩
      · exact ⟨prefix_insertOrIgnore _ _ _, prefix_insertOrIgnore _ _ _, List.prefix_rfl⟩
      · exact ⟨prefix_insertOrIgnore _ _ _, prefix_insertOrIgnore _ _ _, List.prefix_append _ _⟩
  | project update =>
    simp only [Op.step]
    split
    · exact Grows.refl db
    · rename_i db' outcome h
      rcases projectTask_eq_ok h with rfl | ⟨row, -, -, -, -, rfl⟩
      · exact Grows.refl _
      · exact ⟨List.prefix_rfl, List.prefix_append _ _, List.prefix_rfl⟩
  | cancel taskId now =>
    simp only [Op.step]
    split
    · exact Grows.refl db
    · rename_i db' accepted h
      obtain ⟨row, -, -, ⟨-, rfl⟩ | ⟨-, hwrite⟩⟩ := requestCancel_eq_ok h
      · exact Grows.refl _
      · exact grows_of_write hwrite
  | terminal taskId state reason now =>
    simp only [Op.step]
    split
    · exact Grows.refl db
    · rename_i db' h
      rcases recordTerminal_eq_ok h with rfl | ⟨row, -, -, -, -, rfl⟩
      · exact Grows.refl _
      · exact ⟨List.prefix_rfl, List.prefix_append _ _, List.prefix_rfl⟩
  | retry taskId now =>
    simp only [Op.step]
    split
    · exact Grows.refl db
    · rename_i db' instanceId h
      obtain ⟨row, start, -, -, -, -, -, hwrite⟩ := retry_eq_ok h
      exact grows_of_write hwrite

/-- The columns of a task that acceptance compares. -/
def SameIdentity (row row' : TaskRow) : Prop :=
  row'.kind = row.kind ∧ row'.policySnapshotId = row.policySnapshotId
    ∧ row'.instanceId = row.instanceId

theorem SameIdentity.refl (row : TaskRow) : SameIdentity row row := ⟨rfl, rfl, rfl⟩

theorem task_updateTask_same {db : Db} (f : TaskRow → TaskRow) (hid : ∀ row, (f row).id = row.id)
    (hf : ∀ row, SameIdentity row (f row)) {id : Id} {row : TaskRow} (hrow : db.task id = some row)
    (taskId : Id) : ∃ row', (db.updateTask taskId f).task id = some row'
      ∧ SameIdentity row row' := by
  rw [Db.task_updateTask f hid]
  split_ifs
  · exact ⟨f row, by rw [hrow]; rfl, hf row⟩
  · exact ⟨row, hrow, SameIdentity.refl row⟩

/-- An operation that does not retry a task keeps what acceptance compares. -/
theorem step_task_same {db : Db} {op : Op} {id : Id} {row : TaskRow} (hrow : db.task id = some row)
    (hop : ¬ Retries codec db id op) :
    ∃ row', (op.step fromStr codec db).task id = some row' ∧ SameIdentity row row' := by
  have hsame : ∃ row', db.task id = some row' ∧ SameIdentity row row' :=
    ⟨row, hrow, SameIdentity.refl row⟩
  cases op with
  | accept t =>
    simp only [Op.step]
    split
    · exact hsame
    · rename_i db' accepted h
      refine ⟨row, ?_, SameIdentity.refl row⟩
      rcases (acceptTask_eq_ok h).result with ⟨-, rfl⟩ | ⟨-, -, -, rfl⟩ <;>
        exact lookup_insertOrIgnore_of_some hrow
  | project update =>
    simp only [Op.step]
    split
    · exact hsame
    · rename_i db' outcome h
      rcases projectTask_eq_ok h with rfl | ⟨row₀, -, -, -, -, rfl⟩
      · exact hsame
      · exact task_updateTask_same (update.apply _) (fun _ => rfl) (fun _ => ⟨rfl, rfl, rfl⟩) hrow
          update.taskId
  | cancel taskId now =>
    simp only [Op.step]
    split
    · exact hsame
    · rename_i db' accepted h
      obtain ⟨row₀, -, -, ⟨-, rfl⟩ | ⟨-, hwrite⟩⟩ := requestCancel_eq_ok h
      · exact hsame
      · obtain ⟨-, -, -, rfl⟩ := write_eq_some hwrite
        exact task_updateTask_same (cancelRow _ _) (fun _ => rfl) (fun _ => ⟨rfl, rfl, rfl⟩) hrow
          taskId
  | terminal taskId state reason now =>
    simp only [Op.step]
    split
    · exact hsame
    · rename_i db' h
      rcases recordTerminal_eq_ok h with rfl | ⟨row₀, -, -, -, -, rfl⟩
      · exact hsame
      · exact task_updateTask_same (terminalRow _ _ _ _) (fun _ => rfl) (fun _ => ⟨rfl, rfl, rfl⟩)
          hrow taskId
  | retry taskId now =>
    simp only [Op.step]
    split
    · exact hsame
    · rename_i db' instanceId h
      have hne : id ≠ taskId := by
        rintro rfl
        exact hop ⟨now, rfl, by rw [h]; rfl⟩
      obtain ⟨row₀, start, -, -, -, -, -, hwrite⟩ := retry_eq_ok h
      obtain ⟨-, -, -, rfl⟩ := write_eq_some hwrite
      refine ⟨row, ?_, SameIdentity.refl row⟩
      calc (db.updateTask taskId _).task id = db.task id := by
            rw [Db.task_updateTask (retryRow _ _ _) (fun _ => rfl), if_neg hne]
        _ = some row := hrow

/-- A retry makes the instance of its task longer. -/
theorem step_task_retried {db : Db} {op : Op} {id : Id} {row : TaskRow}
    (hrow : db.task id = some row) (hop : Retries codec db id op) :
    ∃ row', (op.step fromStr codec db).task id = some row'
      ∧ row.instanceId.length < row'.instanceId.length := by
  obtain ⟨now, rfl, hok⟩ := hop
  cases h : TaskControl.retry codec db id now with
  | error e => rw [h] at hok; cases hok
  | ok result =>
    obtain ⟨db', instanceId⟩ := result
    obtain ⟨row₀, start, hrow₀, hstart, -, -, -, hwrite⟩ := retry_eq_ok h
    obtain rfl : row = row₀ := by rw [hrow] at hrow₀; exact Option.some_inj.mp hrow₀
    have hinstance : start.instanceId = row.instanceId := (lookup_eq_some_mem hstart).2
    obtain ⟨-, -, -, hdb'⟩ := write_eq_some hwrite
    refine ⟨retryRow (retryInstance start.instanceId (row.projectionGeneration + 1))
      (row.projectionGeneration + 1) now row, ?_, ?_⟩
    · simp only [Op.step, h, hdb']
      have htask := Db.task_updateTask
        (retryRow (retryInstance start.instanceId (row.projectionGeneration + 1))
          (row.projectionGeneration + 1) now) (fun _ => rfl) db id id
      rw [if_pos rfl, hrow] at htask
      exact htask
    · simp only [retryRow, retryInstance, hinstance, String.length_append]
      have hretry : ":retry:".length = 7 := by decide
      omega

/-! ### Runs -/

theorem runOps_grows (ops : List Op) (db : Db) : Grows db (runOps fromStr codec db ops) := by
  induction ops generalizing db with
  | nil => exact Grows.refl db
  | cons op ops ih => exact (step_grows db op).trans (ih _)

/-- Without a retry of the task, a run keeps what acceptance compares. -/
theorem runOps_task_same (ops : List Op) {db : Db} {id : Id} {row : TaskRow}
    (hrow : db.task id = some row) (hnever : NeverRetried fromStr codec id db ops) :
    ∃ row', (runOps fromStr codec db ops).task id = some row' ∧ SameIdentity row row' := by
  induction ops generalizing db row with
  | nil => exact ⟨row, hrow, SameIdentity.refl row⟩
  | cons op ops ih =>
    obtain ⟨hop, hrest⟩ := hnever
    obtain ⟨row₁, hrow₁, hkind, hpolicy, hinstance⟩ := step_task_same hrow hop
    obtain ⟨row₂, hrow₂, hkind', hpolicy', hinstance'⟩ := ih hrow₁ hrest
    exact ⟨row₂, hrow₂, hkind'.trans hkind, hpolicy'.trans hpolicy, hinstance'.trans hinstance⟩

theorem runOps_task_length (ops : List Op) {db : Db} {id : Id} {row : TaskRow}
    (hrow : db.task id = some row) :
    ∃ row', (runOps fromStr codec db ops).task id = some row'
      ∧ row.instanceId.length ≤ row'.instanceId.length
      ∧ (¬ NeverRetried fromStr codec id db ops →
        row.instanceId.length < row'.instanceId.length) := by
  induction ops generalizing db row with
  | nil => exact ⟨row, hrow, le_rfl, fun h => absurd trivial h⟩
  | cons op ops ih =>
    by_cases hop : Retries codec db id op
    · obtain ⟨row₁, hrow₁, hlength⟩ := step_task_retried hrow hop
      obtain ⟨row₂, hrow₂, hlength', -⟩ := ih hrow₁
      have hlonger : row.instanceId.length < row₂.instanceId.length := by omega
      exact ⟨row₂, hrow₂, hlonger.le, fun _ => hlonger⟩
    · obtain ⟨row₁, hrow₁, -, -, hinstance⟩ := step_task_same hrow hop
      obtain ⟨row₂, hrow₂, hlength, hretried⟩ := ih hrow₁
      rw [hinstance] at hlength hretried
      exact ⟨row₂, hrow₂, hlength, fun h => hretried fun hrest => h ⟨hop, hrest⟩⟩

end

/-! ### Acceptance -/

section

variable {jsonValid : String → Bool} {db : Db} {t : NewTask}

/-- A request whose content is in the tables is a duplicate. -/
theorem acceptTask_of_bound (hpayload : jsonValid t.policy.payloadJson = true)
    (hinput : jsonValid t.inputJson = true) (hpolicy : BoundPolicy db t.policy)
    (hrow : BoundRow db t) (hevent : (lookup EventRow.key db.events t.event.key).isSome = true)
    (hstart : BoundStart db t) : acceptTask jsonValid db t = .ok (db, ⟨t.id, true⟩) := by
  have hpolicies : insertOrIgnore PolicyRow.id db.policies t.policy = db.policies := by
    obtain ⟨row, hlookup, -⟩ := hpolicy
    exact insertOrIgnore_of_some hlookup
  have htasks : insertOrIgnore TaskRow.id db.tasks t.row = db.tasks := by
    obtain ⟨row, hlookup, -⟩ := hrow
    exact insertOrIgnore_of_some hlookup
  have hevents : insertOrIgnore EventRow.key db.events t.event = db.events := by
    obtain ⟨row, hlookup⟩ := Option.isSome_iff_exists.mp hevent
    exact insertOrIgnore_of_some hlookup
  have hkey : (lookup OutboxRow.taskKey db.outbox t.key).isSome = true := by
    obtain ⟨row, hlookup, -⟩ := hstart
    rw [hlookup]; rfl
  simp only [acceptTask, acceptTaskIn, insertPolicy, hpayload, if_true, hpolicies,
    insertTask, htasks, insertQueued, hevents, insertStart, hinput, hkey, Bool.not_true,
    Bool.false_eq_true, if_false, verifyPolicy_eq_ok.mpr hpolicy, verifyTask_eq_ok.mpr hrow,
    verifyOutbox_eq_ok.mpr hstart, bind, Except.bind, pure, Except.pure]
  rfl

/-- A task whose row and start request are in the tables is accepted, and it is not new. -/
theorem acceptTaskIn_of_bound (hpayload : jsonValid t.policy.payloadJson = true)
    (hinput : jsonValid t.inputJson = true)
    (hpolicy : ∀ row ∈ db.policies, row.id = t.policy.id → row.configHash = t.policy.configHash
      ∧ row.matcherVersion = t.policy.matcherVersion ∧ row.payloadJson = t.policy.payloadJson)
    (hrow : BoundRow db t) (hstart : BoundStart db t) :
    acceptTaskIn jsonValid db t = .ok (insertRows db t, false) := by
  have hverifyPolicy : verifyPolicy { db with
    policies := insertOrIgnore PolicyRow.id db.policies t.policy } t.policy
      = .ok () := by
    refine verifyPolicy_eq_ok.mpr ⟨_, lookup_insertOrIgnore_self db.policies t.policy, ?_⟩
    cases hold : lookup PolicyRow.id db.policies t.policy.id with
    | none => exact ⟨rfl, rfl, rfl⟩
    | some row => exact hpolicy row (lookup_eq_some_mem hold).1 (lookup_eq_some_mem hold).2
  have hverifyTask : ∀ policies, verifyTask (insertTask { db with policies } t) t = .ok () := by
    obtain ⟨row, hlookup, hcolumns⟩ := hrow
    exact fun policies => verifyTask_eq_ok.mpr ⟨row,
      lookup_insertOrIgnore_of_some hlookup, hcolumns⟩
  have hkey : (lookup OutboxRow.taskKey db.outbox t.key).isSome = true := by
    obtain ⟨row, hlookup, -⟩ := hstart
    rw [hlookup]; rfl
  have hverifyOutbox : verifyOutbox (insertRows db t) t = .ok () := verifyOutbox_eq_ok.mpr hstart
  unfold acceptTaskIn insertPolicy
  rw [if_pos hpayload]
  simp only [bind, Except.bind, hverifyPolicy, hverifyTask]
  simp only [insertTask, insertQueued, insertStart, hinput, hkey, Bool.not_true, Bool.false_eq_true,
    if_false, if_true]
  simp only [insertRows] at hverifyOutbox ⊢
  rw [hverifyOutbox]
  rfl

theorem event_of_acceptedIn {db' : Db} {inserted : Bool}
    (h : AcceptedIn jsonValid db t db' inserted) :
    (lookup EventRow.key db'.events t.event.key).isSome = true := by
  have hevents : db'.events = insertOrIgnore EventRow.key db.events t.event := by
    rcases h.result with ⟨-, rfl⟩ | ⟨-, -, -, rfl⟩ <;> rfl
  rw [hevents, lookup_insertOrIgnore_self]
  rfl

end

/-- **When a task is accepted again.** After any operations let a task be accepted, and let any
operations follow. The same request, at any time, then returns the task as a duplicate and changes
no table if and only if none of these operations was a successful retry of the task. -/
theorem reaccept_iff_never_retried (fromStr : String → Bool) (codec : ControlCodec)
    (before after : List Op) (t : NewTask) (createdAt policyCreatedAt : ℤ) (accepted : AcceptedTask)
    (bound : Db)
    (haccepted : acceptTask codec.jsonValid (runOps fromStr codec Db.empty before) t
      = .ok (bound, accepted)) :
    let db := runOps fromStr codec bound after
    acceptTask codec.jsonValid db (AtTime t createdAt policyCreatedAt) = .ok (db, ⟨t.id, true⟩)
      ↔ NeverRetried fromStr codec t.id bound after := by
  intro db
  have hin := acceptTask_eq_ok haccepted
  obtain ⟨row, hrow, hkind, hinstance, hpolicyId⟩ := hin.row
  constructor
  · intro hok
    by_contra hretried
    obtain ⟨row₁, hrow₁, -, hlonger⟩ := runOps_task_length after hrow
    obtain ⟨row₂, hrow₂, -, hinstance₂, -⟩ := (acceptTask_eq_ok hok).row
    obtain rfl : row₁ = row₂ := Option.some_inj.mp (hrow₁.symm.trans hrow₂)
    have hlength := hlonger hretried
    rw [hinstance, hinstance₂] at hlength
    exact lt_irrefl _ hlength
  · intro hnever
    have hgrows : Grows bound db := runOps_grows after bound
    obtain ⟨row₁, hrow₁, hkind₁, hpolicy₁, hinstance₁⟩ := runOps_task_same after hrow hnever
    refine acceptTask_of_bound (t := AtTime t createdAt policyCreatedAt) hin.payload hin.input
      ?_ ?_ ?_ ?_
    · obtain ⟨policy, hpolicy, hcontent⟩ := hin.policy
      exact ⟨policy, lookup_kept hgrows.policies hpolicy, hcontent⟩
    · exact ⟨row₁, hrow₁, hkind₁.trans hkind, hinstance₁.trans hinstance, hpolicy₁.trans hpolicyId⟩
    · obtain ⟨event, hevent⟩ := Option.isSome_iff_exists.mp (event_of_acceptedIn hin)
      rw [Option.isSome_iff_exists]
      exact ⟨event, lookup_kept hgrows.events hevent⟩
    · obtain ⟨start, hstart, hcontent⟩ := hin.start
      exact ⟨start, lookup_kept hgrows.outbox hstart, hcontent⟩

/-! ### A task that is retried -/

/-- The encoders, with SHA-256 on the two texts that `scan` and its retry hash. -/
def scanCodec : ControlCodec := .plain fun data =>
  if data = utf8 "task-cancellation-v1" ++ idBytes 1 ++ generationBytes 1 then
    0x6dedc0225eb37e869cc0c9b993cbf6e99db29601f6382c7deb0103d0461e0e36
  else
    0x0fd5253df8d140d406fd7a7731a273bc86c93cc9933080409f760e0bc8da0056

/-- A task that scans the data. -/
def scan : NewTask where
  id := 1
  key := 7
  kind := "data_scan"
  policy := ⟨1, 2, "sporos-matcher/1", "null", 5⟩
  orchestrationName := "ScanData"
  orchestrationVersion := "1.0.0"
  instanceId := "data-scan:1"
  inputJson := "null"
  createdAt := 5

/-- A cancellation whose target was not found. -/
def scanCancelled : List Op := [.cancel 1 6, .terminal 1 "failed" "orchestration_missing" 7]

/-- The tables after the first acceptance. -/
def scanAccepted : Db := runOps (fun _ => true) scanCodec Db.empty [.accept scan]

/-- After a retry, the request that was accepted before is refused. -/
theorem acceptTask_scan_retried :
    acceptTask scanCodec.jsonValid Db.empty scan = .ok (scanAccepted, ⟨1, false⟩)
      ∧ acceptTask scanCodec.jsonValid
          (runOps (fun _ => true) scanCodec scanAccepted (scanCancelled ++ [.retry 1 8])) scan
        = .error .taskIdentityCollision := by
  decide +kernel

theorem reaccept_scan_cancelled :
    acceptTask scanCodec.jsonValid (runOps (fun _ => true) scanCodec Db.empty []) scan
        = .ok (scanAccepted, ⟨1, false⟩)
      ∧ acceptTask scanCodec.jsonValid
          (runOps (fun _ => true) scanCodec scanAccepted scanCancelled) (AtTime scan 9 9)
        = .ok (runOps (fun _ => true) scanCodec scanAccepted scanCancelled, ⟨1, true⟩) := by
  have haccepted : acceptTask scanCodec.jsonValid (runOps
    (fun _ => true) scanCodec Db.empty []) scan
      = .ok (scanAccepted, ⟨1, false⟩) := by decide +kernel
  refine ⟨haccepted, (reaccept_iff_never_retried (fun _ => true) scanCodec [] scanCancelled scan 9 9
    ⟨1, false⟩ scanAccepted haccepted).mpr ⟨?_, ?_, trivial⟩⟩
  · rintro ⟨now, hop, -⟩
    cases hop
  · rintro ⟨now, hop, -⟩
    cases hop

end Sporos.Service.Acceptance

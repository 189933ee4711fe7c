import Sporos.Lib.Lists
import Sporos.Lib.Numbered
import Sporos.Lib.Table
import Sporos.Vendor.Events

/-! # The SQLite provider of the workflow runtime

What `SqliteProvider` stores of the workflows, and its operations. Each operation is one
transaction; an operation that fails leaves the store as it was. Rows stand in the order of
insertion, queues have numbers. The clock and the lock tokens are arguments: an operation that reads
the clock twice may read different times. -/

namespace Sporos.Vendor.Provider

open Sporos.Lib.Lists
open Sporos.Lib.Numbered
open Sporos.Lib.Table

/-! ### Errors -/

/-- `ProviderError`. -/
structure ProviderError where
  operation : String
  message : String
  retryable : Bool
  deriving DecidableEq, Repr

/-- An error that a retry does not help against. -/
def ProviderError.permanent (operation message : String) : ProviderError :=
  ⟨operation, message, false⟩

/-- `sqlx_to_provider_error` of a conflict on a key. -/
def constraintViolation (operation columns : String) : ProviderError :=
  .permanent operation ("Constraint violation: UNIQUE constraint failed: " ++ columns)

/-! ### Tables -/

/-- `semver::Version`, with the number that the capability filter compares. -/
structure SemVer where
  major : ℕ
  minor : ℕ
  patch : ℕ
  deriving DecidableEq, Repr

/-- A version as one number, as the SQL compares it. -/
def SemVer.packed (v : SemVer) : ℕ := v.major * 1000000 + v.minor * 1000 + v.patch

/-- A row of `instances`. -/
structure InstanceRow where
  instanceId : String
  orchestrationName : String
  orchestrationVersion : String
  currentExecutionId : ℕ
  parentInstanceId : Option String
  customStatus : Option String
  customStatusVersion : ℕ
  deriving DecidableEq, Repr

/-- A row of `executions`. -/
structure ExecutionRow where
  instanceId : String
  executionId : ℕ
  status : String
  output : Option String
  completedAt : Option ℤ
  duroxideVersion : Option SemVer
  deriving DecidableEq, Repr

/-- The primary key of `executions`. -/
def ExecutionRow.key (row : ExecutionRow) : String × ℕ := (row.instanceId, row.executionId)

/-- A row of `history`. -/
structure HistoryRow where
  instanceId : String
  executionId : ℕ
  event : Event
  deriving DecidableEq, Repr

/-- The primary key of `history`. -/
def HistoryRow.key (row : HistoryRow) : String × ℕ × ℕ :=
  (row.instanceId, row.executionId, row.event.eventId)

/-- A row of `orchestrator_queue`. -/
structure Message where
  id : ℕ
  instanceId : String
  workItem : WorkItem
  visibleAt : ℤ
  lockToken : Option String
  attemptCount : ℕ
  deriving DecidableEq, Repr

/-- What a row of the queue keeps from its insertion on. -/
def Message.entry (m : Message) : ℕ × String × WorkItem := (m.id, m.instanceId, m.workItem)

/-- A row of `instance_locks`. -/
structure InstanceLock where
  instanceId : String
  lockToken : String
  lockedUntil : ℤ
  lockedAt : ℤ
  deriving DecidableEq, Repr

/-- A row of `worker_queue`. -/
structure Work where
  id : ℕ
  workItem : WorkItem
  instanceId : Option String
  executionId : Option ℕ
  activityId : Option ℕ
  sessionId : Option String
  tag : Option String
  visibleAt : ℤ
  lockToken : Option String
  lockedUntil : Option ℤ
  attemptCount : ℕ
  deriving DecidableEq, Repr

/-- What identifies an activity, and where it may run. -/
def Work.entry (w : Work) :
    ℕ × WorkItem × Option String × Option ℕ × Option ℕ × Option String × Option String :=
  (w.id, w.workItem, w.instanceId, w.executionId, w.activityId, w.sessionId, w.tag)

/-- A row of `sessions`. -/
structure Session where
  sessionId : String
  workerId : String
  lockedUntil : ℤ
  lastActivityAt : ℤ
  deriving DecidableEq, Repr

/-- A row of `kv_store`. -/
structure KvRow where
  instanceId : String
  key : String
  value : String
  lastUpdatedAtMs : ℤ
  deriving DecidableEq, Repr

/-- The primary key of `kv_store`. -/
def KvRow.id (row : KvRow) : String × String := (row.instanceId, row.key)

/-- A row of `kv_delta`; one without a value is a tombstone. -/
structure KvDeltaRow where
  instanceId : String
  key : String
  value : Option String
  lastUpdatedAtMs : ℤ
  deriving DecidableEq, Repr

/-- The primary key of `kv_delta`. -/
def KvDeltaRow.id (row : KvDeltaRow) : String × String := (row.instanceId, row.key)

/-- The tables of the provider. -/
structure Store where
  instances : List InstanceRow
  executions : List ExecutionRow
  history : List HistoryRow
  orchestratorQueue : Queue Message.entry
  instanceLocks : List InstanceLock
  workerQueue : Queue Work.entry
  sessions : List Session
  kvStore : List KvRow
  kvDelta : List KvDeltaRow

/-- The store after the migrations. -/
def Store.init : Store := ⟨[], [], [], empty 1, [], empty 1, [], [], []⟩

/-! ### Queueing -/

/-- `now.saturating_add(delay)`. -/
def visibleAfter (now : ℤ) (delay : Option ℕ) : ℤ :=
  match delay with
  | none => now
  | some delay => min (now + min delay (2 ^ 63 - 1)) (2 ^ 63 - 1)

/-- `INSERT INTO orchestrator_queue`. -/
def newMessage (instanceId : String) (workItem : WorkItem) (visibleAt : ℤ) : New Message.entry :=
  ⟨fun id => ⟨id, instanceId, workItem, visibleAt, none, 0⟩, fun _ => rfl⟩

/-- `INSERT INTO worker_queue`, with the columns that identify an activity. -/
def newWork (workItem : WorkItem) (now : ℤ) : New Work.entry :=
  match workItem with
  | .activityExecute instanceId executionId id _ _ sessionId tag =>
    ⟨fun n => ⟨n, workItem, some instanceId, some executionId, some id, sessionId, tag,
      now, none, none, 0⟩, fun _ => rfl⟩
  | _ => ⟨fun n => ⟨n, workItem, none, none, none, none, none, now, none, none, 0⟩, fun _ => rfl⟩

/-- The identity of an instance is reserved with the queue entry of its start. -/
def reserveStart (item : WorkItem) (s : Store) : Except ProviderError Store :=
  match item with
  | .startOrchestration instanceId orchestration _ version parentInstance executionId =>
    if (lookup InstanceRow.instanceId s.instances instanceId).isSome then
      .error (constraintViolation "enqueue_for_orchestrator" "instances.instance_id")
    else if (lookup ExecutionRow.key s.executions (instanceId, executionId)).isSome then
      .error (constraintViolation "enqueue_for_orchestrator"
        "executions.instance_id, executions.execution_id")
    else
      .ok { s with
        instances := s.instances ++
          [⟨instanceId, orchestration, version.getD "unknown", executionId,
            parentInstance, none, 0⟩]
        executions := s.executions ++ [⟨instanceId, executionId, "Running", none, none, none⟩] }
  | _ => .ok s

/-- `enqueue_orchestrator_work_with_delay`. -/
def enqueueOrchestratorWorkWithDelay (item : WorkItem) (delay : Option ℕ) (now : ℤ) (s : Store) :
    Except ProviderError Store :=
  match item.target with
  | none => .error (.permanent "enqueue_for_orchestrator" "Invalid work item type")
  | some instanceId => do
    let s ← reserveStart item s
    return { s with
      orchestratorQueue :=
        insert s.orchestratorQueue (newMessage instanceId item (visibleAfter now delay)) }

/-- `enqueue_for_worker`. -/
def enqueueForWorker (item : WorkItem) (now : ℤ) (s : Store) : Store :=
  { s with workerQueue := insert s.workerQueue (newWork item now) }

/-! ### Reading -/

/-- `read_with_execution`: the events of an execution, in the order of their ids. -/
def readWithExecution (s : Store) (instanceId : String) (executionId : ℕ) : List Event :=
  ((s.history.filter fun row => row.instanceId = instanceId ∧ row.executionId =
    executionId).insertionSort
    (ByKey fun row => row.event.eventId)).map HistoryRow.event

/-- `COALESCE(MAX(execution_id), 1)`. -/
def latestExecutionId (s : Store) (instanceId : String) : ℕ :=
  (((s.executions.filter fun row =>
    row.instanceId = instanceId).map ExecutionRow.executionId).max?).getD 1

/-- `read`. -/
def read (s : Store) (instanceId : String) : List Event :=
  readWithExecution s instanceId (latestExecutionId s instanceId)

/-- `get_kv_snapshot_in_tx`. -/
def getKvSnapshot (s : Store) (instanceId : String) : List (String × String × ℤ) :=
  (s.kvStore.filter fun row => row.instanceId = instanceId).map fun row =>
    (row.key, row.value, row.lastUpdatedAtMs)

/-- `get_kv_value`: the changes of the current execution come first. -/
def getKvValue (s : Store) (instanceId key : String) : Option String :=
  match lookup KvDeltaRow.id s.kvDelta (instanceId, key) with
  | some row => row.value
  | none => (lookup KvRow.id s.kvStore (instanceId, key)).map KvRow.value

/-- A change is put over the values that have been read. -/
def putChange (map : List (String × String)) (row : KvDeltaRow) : List (String × String) :=
  match row.value with
  | some value => upsert Prod.fst map (row.key, value) fun entry => (entry.1, value)
  | none => map.filter fun entry => entry.1 ≠ row.key

/-- `get_kv_all_values`: the values of `kv_store`, with the changes put over them one after the
other. -/
def getKvAllValues (s : Store) (instanceId : String) : List (String × String) :=
  (s.kvDelta.filter fun row => row.instanceId = instanceId).foldl putChange
    ((s.kvStore.filter fun row => row.instanceId = instanceId).map fun row => (row.key, row.value))

/-! ### The turns of the orchestrations -/

/-- `SemverRange`: both ends are included. -/
structure SemverRange where
  min : SemVer
  max : SemVer
  deriving DecidableEq, Repr

/-- `DispatcherCapabilityFilter`: the versions that a dispatcher can replay. -/
abbrev DispatcherCapabilityFilter := List SemverRange

/-- The version that the current execution of an instance is pinned to. -/
def pinnedVersion (s : Store) (instanceId : String) : Option SemVer := do
  let info ← lookup InstanceRow.instanceId s.instances instanceId
  let execution ← lookup ExecutionRow.key s.executions (instanceId, info.currentExecutionId)
  execution.duroxideVersion

/-- An instance is served if its version is within the first range. -/
def supported (filter : Option DispatcherCapabilityFilter) (s : Store)
    (instanceId : String) : Bool :=
  match filter with
  | none => true
  | some [] => false
  | some (range :: _) =>
    match pinnedVersion s instanceId with
    | none => true
    | some version => range.min.packed ≤ version.packed && version.packed ≤ range.max.packed

/-- No lock of the instance is in force. -/
def unlocked (s : Store) (instanceId : String) (now : ℤ) : Bool :=
  match lookup InstanceLock.instanceId s.instanceLocks instanceId with
  | none => true
  | some lock => lock.lockedUntil ≤ now

/-- The instance of the first message that may be served. -/
def selectInstance (filter : Option DispatcherCapabilityFilter) (now : ℤ)
    (s : Store) : Option String :=
  (s.orchestratorQueue.rows.find? fun m =>
    m.visibleAt ≤ now && unlocked s m.instanceId now && supported filter s m.instanceId).map
      Message.instanceId

/-- `INSERT INTO instance_locks … ON CONFLICT … DO UPDATE … WHERE locked_until <= now`. -/
def acquireLock (instanceId lockToken : String) (lockedUntil now : ℤ) (locks : List InstanceLock) :
    Option (List InstanceLock) :=
  match lookup InstanceLock.instanceId locks instanceId with
  | none => some (locks ++ [⟨instanceId, lockToken, lockedUntil, now⟩])
  | some old =>
    if old.lockedUntil ≤ now then
      some (updateKey InstanceLock.instanceId locks instanceId fun lock =>
        { lock with lockToken, lockedUntil, lockedAt := now })
    else none

/-- The visible messages of the instance get the token. -/
def Message.mark (instanceId lockToken : String) (now : ℤ) (m : Message) : Message :=
  if m.instanceId = instanceId ∧ m.visibleAt ≤ now then
    { m with lockToken := some lockToken, attemptCount := m.attemptCount + 1 }
  else m

theorem Message.entry_mark (instanceId lockToken : String) (now : ℤ) (m : Message) :
    (m.mark instanceId lockToken now).entry = m.entry := by
  unfold mark
  split_ifs <;> rfl

/-- `DELETE … WHERE lock_token = token`. -/
def Message.has (lockToken : String) (m : Message) : Bool := m.lockToken = some lockToken

/-- Whose turn it is, as far as the store knows. -/
inductive Context where
  | found (name version : String) (executionId : ℕ) (history : List Event)
  | orphans
  | unknown

/-- The orchestration that a history started with. -/
def startedIn (history : List Event) : Option (String × String) :=
  history.findSome? fun event =>
    match event.kind with
    | .orchestrationStarted name version _ _ => some (name, version)
    | _ => none

/-- The orchestration that the messages start. -/
def startedBy (items : List WorkItem) : Option (String × Option String) :=
  items.findSome? fun item =>
    match item with
    | .startOrchestration _ orchestration _ version _ _ => some (orchestration, version)
    | .continueAsNew _ orchestration _ version => some (orchestration, version)
    | _ => none

/-- What a fetch knows of an instance: its row, else the start in its history or in the batch. -/
def findContext (s : Store) (instanceId : String) (items : List WorkItem) : Context :=
  match lookup InstanceRow.instanceId s.instances instanceId with
  | some info =>
    .found info.orchestrationName info.orchestrationVersion info.currentExecutionId
      (readWithExecution s instanceId info.currentExecutionId)
  | none =>
    match startedIn (read s instanceId) with
    | some (name, version) => .found name version 1 (read s instanceId)
    | none =>
      match startedBy items with
      | some (orchestration, version) => .found orchestration (version.getD "unknown") 1 []
      | none => if items.all WorkItem.isQueueMessage then .orphans else .unknown

/-- What a fetch hands to a dispatcher. -/
structure OrchestrationItem where
  instanceId : String
  orchestrationName : String
  executionId : ℕ
  version : String
  history : List Event
  messages : List WorkItem
  kvSnapshot : List (String × String × ℤ)
  deriving DecidableEq, Repr

/-- `fetch_orchestration_item`: the turn, if there is one, and its attempt count. -/
def fetchOrchestrationItem (lockToken : String) (lockTimeout : ℕ)
    (filter : Option DispatcherCapabilityFilter) (now now' : ℤ) (s : Store) :
      Option (OrchestrationItem × ℕ) × Store :=
  match selectInstance filter now s with
  | none => (none, s)
  | some instanceId =>
    match acquireLock instanceId lockToken (now' + lockTimeout) now s.instanceLocks with
    | none => (none, s)
    | some instanceLocks =>
      let orchestratorQueue :=
        update s.orchestratorQueue (Message.mark instanceId lockToken now)
          (Message.entry_mark instanceId lockToken now)
      let messages := orchestratorQueue.rows.filter (Message.has lockToken)
      let items := messages.map Message.workItem
      if messages = [] then (none, s)
      else
        match findContext s instanceId items with
        | .found orchestrationName version executionId history =>
          (some (⟨instanceId, orchestrationName, executionId, version, history, items,
            getKvSnapshot s instanceId⟩,
              (messages.map Message.attemptCount).foldl max 0),
            { s with instanceLocks, orchestratorQueue })
        | .orphans =>
          (none, { s with
            orchestratorQueue := delete orchestratorQueue (Message.has lockToken)
            instanceLocks := instanceLocks.filter fun lock => lock.lockToken ≠ lockToken })
        | .unknown => (none, s)

/-- What an acknowledgement says of the execution. -/
structure ExecutionMetadata where
  status : Option String
  output : Option String
  orchestrationName : Option String
  orchestrationVersion : Option String
  parentInstanceId : Option String
  pinnedDuroxideVersion : Option SemVer
  deriving DecidableEq, Repr

/-- The activity that a cancellation is about. -/
structure ScheduledActivityIdentifier where
  instanceId : String
  executionId : ℕ
  activityId : ℕ
  deriving DecidableEq, Repr

/-- The readings of the clock in one `ack_orchestration_item`: for the status, for the n-th event,
for the worker items, for the n-th orchestrator item, and for the check of the lock. -/
structure AckClock where
  completed : ℤ
  cleared : ℕ → ℤ
  enqueued : ℤ
  visible : ℕ → ℤ
  checked : ℤ

/-- The instance gets the name and the version that the runtime has resolved, and the newest
execution. -/
def recordInstance (instanceId : String) (executionId : ℕ) (metadata : ExecutionMetadata)
    (instances : List InstanceRow) : List InstanceRow :=
  let named :=
    match metadata.orchestrationName, metadata.orchestrationVersion with
    | some name, some version =>
      updateKey InstanceRow.instanceId
        (insertOrIgnore InstanceRow.instanceId instances
          ⟨instanceId, name, version, executionId, metadata.parentInstanceId, none, 0⟩)
        instanceId fun row =>
          { row with orchestrationName := name, orchestrationVersion := version }
    | _, _ => instances
  updateKey InstanceRow.instanceId named instanceId fun row =>
    { row with currentExecutionId := max row.currentExecutionId executionId }

/-- The last custom status of the events. -/
def customStatusOf (events : List Event) : Option (Option String) :=
  events.reverse.findSome? fun event =>
    match event.kind with
    | .customStatusUpdated status => some status
    | _ => none

/-- The last custom status of the events is stored with the instance. -/
def recordCustomStatus (instanceId : String) (events : List Event) (instances : List InstanceRow) :
    List InstanceRow :=
  match customStatusOf events with
  | some customStatus =>
    updateKey InstanceRow.instanceId instances instanceId fun row =>
      { row with customStatus, customStatusVersion := row.customStatusVersion + 1 }
  | none => instances

/-- The row of the execution is inserted, pinned to a version, and ended if its status says so. -/
def recordExecution (instanceId : String) (executionId : ℕ)
    (metadata : ExecutionMetadata) (completed : ℤ) (executions : List ExecutionRow) :
      List ExecutionRow :=
  let executions :=
    insertOrIgnore ExecutionRow.key executions ⟨instanceId, executionId, "Running",
      none, none, none⟩
  let executions :=
    match metadata.pinnedDuroxideVersion with
    | some version =>
      updateKey ExecutionRow.key executions (instanceId, executionId) fun row =>
        { row with duroxideVersion := some version }
    | none => executions
  match metadata.status with
  | some status =>
    updateKey ExecutionRow.key executions (instanceId, executionId) fun row =>
      { row with status, output := metadata.output, completedAt := some completed }
  | none => executions

/-- An event is appended, under an id that is new in its execution. -/
def insertEvent (instanceId : String) (executionId : ℕ) (history : List HistoryRow)
    (event : Event) : Except String (List HistoryRow) :=
  if (lookup HistoryRow.key history (instanceId, executionId, event.eventId)).isSome then
    .error "UNIQUE constraint failed: history.instance_id, history.execution_id, history.event_id"
  else .ok (history ++ [⟨instanceId, executionId, event⟩])

/-- `append_history_in_tx`. -/
def appendHistory (instanceId : String) (executionId : ℕ) (events : List Event)
    (history : List HistoryRow) : Except String (List HistoryRow) :=
  if ∃ event ∈ events, event.eventId = 0 then .error "event_id must be set by runtime"
  else events.foldlM (insertEvent instanceId executionId) history

/-- The n-th event, where it changes the values of the instance. -/
def materialize (instanceId : String) (cleared : ℕ → ℤ) (kvStore : List KvRow)
    (kvDelta : List KvDeltaRow) (event : Event × ℕ) : List KvDeltaRow :=
  match event.1.kind with
  | .keyValueSet key value lastUpdatedAtMs =>
    upsert KvDeltaRow.id kvDelta ⟨instanceId, key, some value, lastUpdatedAtMs⟩ fun row =>
      { row with value := some value, lastUpdatedAtMs := lastUpdatedAtMs }
  | .keyValueCleared key =>
    upsert KvDeltaRow.id kvDelta ⟨instanceId, key, none, cleared event.2⟩ fun row =>
      { row with value := none, lastUpdatedAtMs := cleared event.2 }
  | .keyValuesCleared =>
    ((kvStore.filter fun row => row.instanceId = instanceId).map fun row =>
        (⟨instanceId, row.key, none, cleared event.2⟩ : KvDeltaRow)).foldl
          (insertOrIgnore KvDeltaRow.id)
      (updateKey KvDeltaRow.instanceId kvDelta instanceId fun row =>
        { row with value := none, lastUpdatedAtMs := cleared event.2 })
  | _ => kvDelta

/-- The changes of the values, event after event. -/
def materializeAll (instanceId : String) (cleared : ℕ → ℤ) (events : List Event)
    (kvStore : List KvRow) (kvDelta : List KvDeltaRow) : List KvDeltaRow :=
  events.zipIdx.foldl (materialize instanceId cleared kvStore) kvDelta

/-- The execution has ended. -/
def ExecutionMetadata.isTerminal (metadata : ExecutionMetadata) : Bool :=
  metadata.status = some "Completed" || metadata.status = some "ContinuedAsNew"
    || metadata.status = some "Failed"

/-- The row of a change that is no tombstone, as a row of `kv_store`. -/
def KvDeltaRow.live (instanceId : String) (row : KvDeltaRow) : Option KvRow :=
  if row.instanceId = instanceId then
    row.value.map fun value => ⟨row.instanceId, row.key, value, row.lastUpdatedAtMs⟩
  else none

/-- The changes of the execution go into `kv_store`. -/
def mergeValues (instanceId : String) (kvDelta : List KvDeltaRow)
    (kvStore : List KvRow) : List KvRow :=
  let kvStore := (kvDelta.filterMap (KvDeltaRow.live instanceId)).foldl
    (fun kvStore new => upsert KvRow.id kvStore new fun row =>
      { row with value := new.value, lastUpdatedAtMs := new.lastUpdatedAtMs }) kvStore
  let cleared := (kvDelta.filter fun row => row.instanceId = instanceId
    ∧ row.value = none).map KvDeltaRow.key
  kvStore.filter fun row => ¬ (row.instanceId = instanceId ∧ row.key ∈ cleared)

/-- The activity is one of those that have been cancelled. -/
def Work.cancelledBy (cancelled : List ScheduledActivityIdentifier) (w : Work) : Bool :=
  cancelled.any fun c =>
    w.instanceId = some c.instanceId && w.executionId = some c.executionId && w.activityId =
      some c.activityId

/-- The n-th item that a turn puts into the orchestrator queue; a timer is visible when it fires. -/
def orchestratorMessage (visible : ℕ → ℤ) (item : WorkItem × ℕ) : Option (New Message.entry) :=
  item.1.target.map fun instanceId =>
    newMessage instanceId item.1
      (match item.1 with
      | .timerFired _ _ _ fireAtMs => fireAtMs
      | _ => visible item.2)

/-- What a turn commits. -/
structure Turn where
  executionId : ℕ
  historyDelta : List Event
  workerItems : List WorkItem
  orchestratorItems : List WorkItem
  metadata : ExecutionMetadata
  cancelledActivities : List ScheduledActivityIdentifier

/-- The store after the turn of the instance, where its history is already known. -/
def Store.commit (s : Store) (instanceId lockToken : String) (turn : Turn) (clock : AckClock)
    (history : List HistoryRow) : Store :=
  let kvDelta := materializeAll instanceId clock.cleared turn.historyDelta s.kvStore s.kvDelta
  { s with
    instances := recordCustomStatus instanceId turn.historyDelta
      (recordInstance instanceId turn.executionId turn.metadata s.instances)
    executions :=
      recordExecution instanceId turn.executionId turn.metadata clock.completed s.executions
    history
    orchestratorQueue := insertAll (delete s.orchestratorQueue (Message.has lockToken))
      (turn.orchestratorItems.zipIdx.filterMap (orchestratorMessage clock.visible))
    instanceLocks := s.instanceLocks.filter fun lock =>
      ¬ (lock.instanceId = instanceId ∧ lock.lockToken = lockToken)
    workerQueue := delete (insertAll s.workerQueue (turn.workerItems.map fun item =>
      newWork item clock.enqueued))
      (Work.cancelledBy turn.cancelledActivities)
    kvStore := if turn.metadata.isTerminal
      then mergeValues instanceId kvDelta s.kvStore else s.kvStore
    kvDelta :=
      if turn.metadata.isTerminal then kvDelta.filter fun row =>
        row.instanceId ≠ instanceId else kvDelta }

/-- `ack_orchestration_item`: nothing is committed unless the lock is still in force at the end. -/
def ackOrchestrationItem (lockToken : String) (turn : Turn) (clock : AckClock) (s : Store) :
    Except ProviderError Store :=
  match s.instanceLocks.find? fun lock => lock.lockToken = lockToken with
  | none => .error (.permanent "ack_orchestration_item" "Invalid lock token")
  | some held =>
    match appendHistory held.instanceId turn.executionId turn.historyDelta s.history with
    | .error e => .error (.permanent "ack_orchestration_item" ("Failed to append history: " ++ e))
    | .ok history =>
      if ∃ lock ∈ s.instanceLocks, lock.instanceId = held.instanceId ∧ lock.lockToken = lockToken
          ∧ clock.checked < lock.lockedUntil then
        .ok (s.commit held.instanceId lockToken turn clock history)
      else .error (.permanent "ack_orchestration_item" "Instance lock expired")

/-- `renew_orchestration_item_lock`. -/
def renewOrchestrationItemLock (lockToken : String) (extendFor : ℕ) (now now' : ℤ) (s : Store) :
    Except ProviderError Store :=
  if ∃ lock ∈ s.instanceLocks, lock.lockToken = lockToken ∧ now' < lock.lockedUntil then
    .ok { s with instanceLocks := s.instanceLocks.map fun lock =>
      if lock.lockToken = lockToken ∧ now' < lock.lockedUntil
        then { lock with lockedUntil := now + extendFor }
      else lock }
  else .error (.permanent "renew_orchestration_item_lock"
    "Lock token invalid, expired, or already acked")

/-- The messages of an instance whose turn is given up. -/
def Message.release (instanceId : String) (delay : Option ℕ) (ignoreAttempt : Bool)
    (now now' : ℤ) (m : Message) : Message :=
  if m.instanceId = instanceId then
    let m := if ignoreAttempt then { m with attemptCount := m.attemptCount - 1 } else m
    match delay with
    | some _ => if m.visibleAt ≤ now' then { m with visibleAt := visibleAfter now delay } else m
    | none => m
  else m

theorem Message.entry_release (instanceId : String) (delay : Option ℕ)
    (ignoreAttempt : Bool) (now now' : ℤ) (m : Message) :
      (m.release instanceId delay ignoreAttempt now now').entry = m.entry := by
  unfold release
  cases delay <;> dsimp only <;> split_ifs <;> rfl

/-- `abandon_orchestration_item`. -/
def abandonOrchestrationItem (lockToken : String) (delay : Option ℕ)
    (ignoreAttempt : Bool) (now now' : ℤ) (s : Store) : Except ProviderError Store :=
  match s.instanceLocks.find? fun lock => lock.lockToken = lockToken with
  | none => .error (.permanent "abandon_orchestration_item" "Invalid lock token")
  | some held =>
    .ok { s with
      instanceLocks := s.instanceLocks.filter fun lock => lock.lockToken ≠ lockToken
      orchestratorQueue := update s.orchestratorQueue
        (Message.release held.instanceId delay ignoreAttempt now now')
        (Message.entry_release held.instanceId delay ignoreAttempt now now') }

/-! ### The activities -/

/-- `TagFilter`: the activities that a worker takes. -/
inductive TagFilter where
  | defaultOnly
  | tags (set : List String)
  | defaultAnd (set : List String)
  | any
  | none
  deriving DecidableEq, Repr

/-- `build_tag_clause`. -/
def TagFilter.admits (filter : TagFilter) (tag : Option String) : Bool :=
  match filter with
  | .defaultOnly => tag = Option.none
  | .tags set => tag.any fun tag => tag ∈ set
  | .defaultAnd set => tag.all fun tag => tag ∈ set
  | .any => true
  | .none => false

/-- `SessionFetchConfig`: who owns the sessions, and for how long. -/
structure SessionFetchConfig where
  ownerId : String
  lockTimeout : ℕ
  deriving DecidableEq, Repr

/-- The session is free, or belongs to the owner. -/
def sessionOpen (session : Option SessionFetchConfig) (sessions : List Session)
    (sessionId : Option String) (now : ℤ) : Bool :=
  match sessionId, session with
  | none, _ => true
  | some _, none => false
  | some sessionId, some config =>
    match lookup Session.sessionId sessions sessionId with
    | some row => ! decide (now < row.lockedUntil) || row.workerId = config.ownerId
    | none => true

/-- The work may be fetched now. -/
def Work.available (session : Option SessionFetchConfig) (tagFilter : TagFilter)
    (sessions : List Session) (now : ℤ) (w : Work) : Bool :=
  w.visibleAt ≤ now
    && (w.lockToken = none || w.lockedUntil.any fun lockedUntil => lockedUntil ≤ now)
    && sessionOpen session sessions w.sessionId now
    && tagFilter.admits w.tag

/-- The claim of a session on a fetch; none where another worker has it. -/
def claimSession (session : Option SessionFetchConfig) (sessionId : Option String) (now : ℤ)
    (sessions : List Session) : Option (List Session) :=
  match sessionId, session with
  | some sessionId, some config =>
    let lockedUntil := now + config.lockTimeout
    match lookup Session.sessionId sessions sessionId with
    | none => some (sessions ++ [⟨sessionId, config.ownerId, lockedUntil, now⟩])
    | some old =>
      if old.lockedUntil ≤ now ∨ old.workerId = config.ownerId then
        some (updateKey Session.sessionId sessions sessionId fun row =>
          { row with workerId := config.ownerId, lockedUntil, lastActivityAt := now })
      else none
  | _, _ => some sessions

/-- The row is leased to a worker. -/
def Work.lock (id : ℕ) (lockToken : String) (lockedUntil : ℤ) (w : Work) : Work :=
  if w.id = id then
    { w with
      lockToken := some lockToken
      lockedUntil := some lockedUntil
      attemptCount := w.attemptCount + 1 }
  else w

theorem Work.entry_lock (id : ℕ) (lockToken : String) (lockedUntil : ℤ) (w : Work) :
    (w.lock id lockToken lockedUntil).entry = w.entry := by
  unfold lock
  split_ifs <;> rfl

/-- `fetch_work_item`: the item, if there is one, and its attempt count. -/
def fetchWorkItem (lockToken : String) (lockTimeout : ℕ) (session : Option SessionFetchConfig)
    (tagFilter : TagFilter) (now now' : ℤ) (s : Store) : Option (WorkItem × ℕ) × Store :=
  if tagFilter = .none then (none, s)
  else
    match s.workerQueue.rows.find? (Work.available session tagFilter s.sessions now') with
    | none => (none, s)
    | some next =>
      match claimSession session next.sessionId now' s.sessions with
      | none => (none, s)
      | some sessions =>
        (some (next.workItem, next.attemptCount + 1),
          { s with
            workerQueue := update s.workerQueue (Work.lock next.id lockToken (now + lockTimeout))
              (Work.entry_lock next.id lockToken (now + lockTimeout))
            sessions })

/-- `lock_token = token AND locked_until > now`. -/
def Work.leased (lockToken : String) (now : ℤ) (w : Work) : Bool :=
  w.lockToken = some lockToken && w.lockedUntil.any fun lockedUntil => now < lockedUntil

/-- The session of an item has been active. -/
def touchSession (sessionId : Option String) (now : ℤ) (sessions : List Session) : List Session :=
  match sessionId with
  | none => sessions
  | some sessionId => sessions.map fun row =>
      if row.sessionId = sessionId ∧ now < row.lockedUntil
        then { row with lastActivityAt := now } else row

/-- `ack_work_item`. -/
def ackWorkItem (lockToken : String) (completion : Option WorkItem) (now now' : ℤ) (s : Store) :
    Except ProviderError Store :=
  match s.workerQueue.rows.find? (Work.leased lockToken now) with
  | none =>
    .error (.permanent "ack_work_item"
      "Activity was cancelled or lock expired (worker queue row not found or lock invalid)")
  | some row =>
    let s := { s with
      workerQueue := delete s.workerQueue (Work.leased lockToken now)
      sessions := touchSession row.sessionId now s.sessions }
    match completion with
    | none => .ok s
    | some completion =>
      match completion.completes with
      | none => .error (.permanent "ack_work_item" "Invalid completion type for worker ack")
      | some instanceId =>
        .ok { s with
          orchestratorQueue := insert s.orchestratorQueue (newMessage instanceId completion now') }

/-- The lease of the row is extended while it holds. -/
def Work.renew (lockToken : String) (now lockedUntil : ℤ) (w : Work) : Work :=
  if w.leased lockToken now then { w with lockedUntil := some lockedUntil } else w

theorem Work.entry_renew (lockToken : String) (now lockedUntil : ℤ) (w : Work) :
    (w.renew lockToken now lockedUntil).entry = w.entry := by
  unfold renew
  split_ifs <;> rfl

/-- `renew_work_item_lock`. -/
def renewWorkItemLock (lockToken : String) (extendFor : ℕ) (now now' : ℤ) (s : Store) :
    Except ProviderError Store :=
  match s.workerQueue.rows.find? (Work.leased lockToken now) with
  | none =>
    .error (.permanent "renew_work_item_lock"
      "Lock renewal failed - activity was cancelled or lock expired")
  | some row =>
    .ok { s with
      workerQueue := update s.workerQueue (Work.renew lockToken now (now' + extendFor))
        (Work.entry_renew lockToken now (now' + extendFor))
      sessions := touchSession row.sessionId now s.sessions }

/-- The row is given back, visible from a moment on. -/
def Work.release (lockToken : String) (visibleAt : ℤ) (ignoreAttempt : Bool) (w : Work) : Work :=
  if w.lockToken = some lockToken then
    { w with
      lockToken := none, lockedUntil := none, visibleAt
      attemptCount := if ignoreAttempt then w.attemptCount - 1 else w.attemptCount }
  else w

theorem Work.entry_release (lockToken : String) (visibleAt : ℤ) (ignoreAttempt : Bool) (w : Work) :
    (w.release lockToken visibleAt ignoreAttempt).entry = w.entry := by
  unfold release
  split_ifs <;> rfl

/-- `abandon_work_item`. -/
def abandonWorkItem (lockToken : String) (delay : Option ℕ) (ignoreAttempt : Bool)
    (now : ℤ) (s : Store) : Except ProviderError Store :=
  if ∃ w ∈ s.workerQueue.rows, w.lockToken = some lockToken then
    .ok { s with
      workerQueue :=
        update s.workerQueue (Work.release lockToken (now + delay.getD 0) ignoreAttempt)
        (Work.entry_release lockToken (now + delay.getD 0) ignoreAttempt) }
  else .error (.permanent "abandon_work_item" "Invalid lock token or already acked")

/-- `renew_session_lock`. -/
def renewSessionLock (ownerIds : List String) (extendFor idleTimeout : ℕ) (now : ℤ)
    (s : Store) : Store :=
  { s with sessions := s.sessions.map fun row =>
      if row.workerId ∈ ownerIds ∧ now < row.lockedUntil
          ∧ now - idleTimeout < row.lastActivityAt then
        { row with lockedUntil := now + extendFor }
      else row }

/-- `cleanup_orphaned_sessions`. -/
def cleanupOrphanedSessions (now : ℤ) (s : Store) : Store :=
  { s with sessions := s.sessions.filter fun row =>
      ¬ (row.lockedUntil < now ∧ ∀ w ∈ s.workerQueue.rows, w.sessionId ≠ some row.sessionId) }

/-! ### Runs -/

/-- The operations of the dispatchers and the clients. -/
inductive Op where
  | enqueueOrchestrator (item : WorkItem) (delay : Option ℕ) (now : ℤ)
  | enqueueWorker (item : WorkItem) (now : ℤ)
  | fetchOrchestration (lockToken : String) (lockTimeout : ℕ)
    (filter : Option DispatcherCapabilityFilter)
      (now now' : ℤ)
  | ackOrchestration (lockToken : String) (turn : Turn) (clock : AckClock)
  | renewOrchestration (lockToken : String) (extendFor : ℕ) (now now' : ℤ)
  | abandonOrchestration (lockToken : String) (delay : Option ℕ) (ignoreAttempt :
    Bool) (now now' : ℤ)
  | fetchWork (lockToken : String) (lockTimeout : ℕ) (session : Option SessionFetchConfig)
    (tagFilter : TagFilter)
      (now now' : ℤ)
  | ackWork (lockToken : String) (completion : Option WorkItem) (now now' : ℤ)
  | renewWork (lockToken : String) (extendFor : ℕ) (now now' : ℤ)
  | abandonWork (lockToken : String) (delay : Option ℕ) (ignoreAttempt : Bool) (now : ℤ)
  | renewSession (ownerIds : List String) (extendFor idleTimeout : ℕ) (now : ℤ)
  | cleanupSessions (now : ℤ)

/-- The store after an operation that may have failed. -/
def orUnchanged (s : Store) (result : Except ProviderError Store) : Store :=
  match result with
  | .ok s' => s'
  | .error _ => s

/-- One operation on the store. One that fails changes nothing. -/
def perform (s : Store) : Op → Store
  | .enqueueOrchestrator item delay now =>
      orUnchanged s (enqueueOrchestratorWorkWithDelay item delay now s)
  | .enqueueWorker item now => enqueueForWorker item now s
  | .fetchOrchestration lockToken lockTimeout filter now now' =>
    (fetchOrchestrationItem lockToken lockTimeout filter now now' s).2
  | .ackOrchestration lockToken turn clock =>
    orUnchanged s (ackOrchestrationItem lockToken turn clock s)
  | .renewOrchestration lockToken extendFor now now' =>
    orUnchanged s (renewOrchestrationItemLock lockToken extendFor now now' s)
  | .abandonOrchestration lockToken delay ignoreAttempt now now' =>
    orUnchanged s (abandonOrchestrationItem lockToken delay ignoreAttempt now now' s)
  | .fetchWork lockToken lockTimeout session tagFilter now now' =>
    (fetchWorkItem lockToken lockTimeout session tagFilter now now' s).2
  | .ackWork lockToken completion now now' =>
    orUnchanged s (ackWorkItem lockToken completion now now' s)
  | .renewWork lockToken extendFor now now' =>
    orUnchanged s (renewWorkItemLock lockToken extendFor now now' s)
  | .abandonWork lockToken delay ignoreAttempt now =>
    orUnchanged s (abandonWorkItem lockToken delay ignoreAttempt now s)
  | .renewSession ownerIds extendFor idleTimeout now =>
    renewSessionLock ownerIds extendFor idleTimeout now s
  | .cleanupSessions now => cleanupOrphanedSessions now s

/-- The store after a sequence of operations. -/
def run (ops : List Op) (s : Store) : Store := ops.foldl perform s

/-- The token that an operation draws. -/
def Op.draws : Op → Option String
  | .fetchOrchestration lockToken _ _ _ _ => some lockToken
  | .fetchWork lockToken _ _ _ _ _ => some lockToken
  | _ => none

/-- No token is drawn twice. -/
def FreshTokens (ops : List Op) : Prop := (ops.filterMap Op.draws).Nodup

instance (ops : List Op) : Decidable (FreshTokens ops) := inferInstanceAs (Decidable (List.Nodup _))

theorem run_cons (op : Op) (ops : List Op) (s : Store) :
    run (op :: ops) s = run ops (perform s op) := rfl

theorem run_append (ops ops' : List Op) (s : Store) : run (ops ++ ops') s = run ops' (run ops s) :=
  List.foldl_append

end Sporos.Vendor.Provider

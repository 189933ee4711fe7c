import Mathlib.Data.Nat.Notation

/-! # Events and work items of the workflow runtime

What an execution has gone through, as its history records it, and what the queues carry. -/

namespace Sporos.Vendor

/-! ### Errors -/

/-- What was delivered too often. -/
inductive PoisonMessageType where
  | orchestration (instanceId : String) (executionId : ℕ)
  | activity (instanceId : String) (executionId : ℕ) (activityName : String) (activityId : ℕ)
  | failedDeserialization (instanceId : String) (executionId : ℕ) (error : String)
  deriving DecidableEq, Repr

/-- How the code of an application failed. -/
inductive AppErrorKind where
  | activityFailed
  | orchestrationFailed
  | panicked
  | cancelled (reason : String)
  deriving DecidableEq, Repr

/-- `ErrorDetails`; a configuration error is always one of nondeterminism. -/
inductive ErrorDetails where
  | infrastructure (operation message : String) (retryable : Bool)
  | configuration (resource : String) (message : Option String)
  | application (kind : AppErrorKind) (message : String) (retryable : Bool)
  | poison (attemptCount maxAttempts : ℕ) (messageType : PoisonMessageType) (message : String)
  deriving DecidableEq, Repr

/-- `display_message`. -/
def ErrorDetails.displayMessage : ErrorDetails → String
  | .infrastructure operation message _ => s!"infrastructure:{operation}: {message}"
  | .configuration _ (some message) => s!"nondeterministic: {message}"
  | .configuration resource none => s!"nondeterministic in {resource}"
  | .application (.cancelled reason) _ _ => s!"canceled: {reason}"
  | .application .panicked message _ => s!"orchestration panicked: {message}"
  | .application _ message _ => message
  | .poison attemptCount maxAttempts (.orchestration instanceId _) _ =>
    s!"poison: orchestration {instanceId} exceeded {attemptCount} attempts (max {maxAttempts})"
  | .poison attemptCount maxAttempts (.activity _ _ activityName activityId) _ =>
    s!"poison: activity {activityName}#{activityId} exceeded {attemptCount} attempts (max {maxAttempts})"
  | .poison attemptCount maxAttempts (.failedDeserialization instanceId _ error) _ =>
    s!"poison: orchestration {instanceId} history deserialization failed after {attemptCount} attempts "
      ++ s!"(max {maxAttempts}): {error}"

/-- An error that the code of an orchestration never sees. -/
def ErrorDetails.isSystem : ErrorDetails → Bool
  | .application _ _ _ => false
  | _ => true

/-- `nondeterminism_error`. -/
def nondeterminismError (message : String) : ErrorDetails := .configuration "" (some message)

/-! ### History -/

/-- The kinds of events that the provider or the replay looks into, and the others. -/
inductive EventKind where
  | orchestrationStarted (name version input : String) (parentInstance : Option String)
  | orchestrationCompleted (output : String)
  | orchestrationFailed (details : ErrorDetails)
  | orchestrationContinuedAsNew (input : String)
  | orchestrationCancelRequested (reason : String)
  | activityScheduled (name input : String) (sessionId tag : Option String)
  | activityCompleted (result : String)
  | activityFailed (details : ErrorDetails)
  | activityCancelRequested (reason : String)
  | timerCreated (fireAtMs : ℕ)
  | timerFired (fireAtMs : ℕ)
  | queueSubscribed (name : String)
  | queueEventDelivered (name data : String)
  | queueSubscriptionCancelled (reason : String)
  | externalEvent (name data : String)
  | customStatusUpdated (status : Option String)
  | keyValueSet (key value : String) (lastUpdatedAtMs : ℕ)
  | keyValueCleared (key : String)
  | keyValuesCleared
  | other (eventType data : String)
  deriving DecidableEq, Repr

namespace EventKind

/-- An activity has completed. -/
def isActivityCompleted : EventKind → Bool
  | .activityCompleted _ => true
  | _ => false

/-- An activity has completed or failed. -/
def isActivityEnd : EventKind → Bool
  | .activityCompleted _ | .activityFailed _ => true
  | _ => false

/-- A timer has fired. -/
def isTimerFired : EventKind → Bool
  | .timerFired _ => true
  | _ => false

/-- The execution has completed or failed. -/
def isTerminated : EventKind → Bool
  | .orchestrationCompleted _ | .orchestrationFailed _ => true
  | _ => false

/-- The execution has continued as a new one. -/
def isContinuedAsNew : EventKind → Bool
  | .orchestrationContinuedAsNew _ => true
  | _ => false

/-- The execution has started. -/
def isStarted : EventKind → Bool
  | .orchestrationStarted _ _ _ _ => true
  | _ => false

/-- The reason for which a cancellation has been asked for. -/
def cancelReason : EventKind → Option String
  | .orchestrationCancelRequested reason => some reason
  | _ => none

/-- An activity is scheduled. -/
def isActivityScheduled : EventKind → Bool
  | .activityScheduled _ _ _ _ => true
  | _ => false

/-- A queue is subscribed to. -/
def isQueueSubscribed : EventKind → Bool
  | .queueSubscribed _ => true
  | _ => false

/-- Why an activity is to be cancelled. -/
def activityCancelReason : EventKind → Option String
  | .activityCancelRequested reason => some reason
  | _ => none

/-- Why a subscription is cancelled. -/
def queueCancelReason : EventKind → Option String
  | .queueSubscriptionCancelled reason => some reason
  | _ => none

end EventKind

/-- An event of a history, with the event that it answers. -/
structure Event where
  eventId : ℕ
  sourceEventId : Option ℕ
  kind : EventKind
  deriving DecidableEq, Repr

/-! ### Queues -/

/-- What the queues of the provider carry. -/
inductive WorkItem where
  | startOrchestration (instanceId orchestration input : String)
    (version parentInstance : Option String)
      (executionId : ℕ)
  | activityExecute (instanceId : String) (executionId id : ℕ) (name input : String)
    (sessionId tag : Option String)
  | activityCompleted (instanceId : String) (executionId id : ℕ) (result : String)
  | activityFailed (instanceId : String) (executionId id : ℕ) (details : ErrorDetails)
  | timerFired (instanceId : String) (executionId id fireAtMs : ℕ)
  | externalRaised (instanceId name data : String)
  | subOrchCompleted (parentInstance : String) (parentExecutionId parentId : ℕ) (result : String)
  | subOrchFailed (parentInstance : String) (parentExecutionId parentId : ℕ)
    (details : ErrorDetails)
  | cancelInstance (instanceId reason : String)
  | continueAsNew (instanceId orchestration input : String) (version : Option String)
  | queueMessage (instanceId name data : String)
  deriving DecidableEq, Repr

/-- The instance that an item of the orchestrator queue is for. -/
def WorkItem.target : WorkItem → Option String
  | .startOrchestration instanceId _ _ _ _ _ => some instanceId
  | .activityExecute _ _ _ _ _ _ _ => none
  | .activityCompleted instanceId _ _ _ => some instanceId
  | .activityFailed instanceId _ _ _ => some instanceId
  | .timerFired instanceId _ _ _ => some instanceId
  | .externalRaised instanceId _ _ => some instanceId
  | .subOrchCompleted parentInstance _ _ _ => some parentInstance
  | .subOrchFailed parentInstance _ _ _ => some parentInstance
  | .cancelInstance instanceId _ => some instanceId
  | .continueAsNew instanceId _ _ _ => some instanceId
  | .queueMessage instanceId _ _ => some instanceId

/-- A message to a named queue of an instance. -/
def WorkItem.isQueueMessage : WorkItem → Bool
  | .queueMessage _ _ _ => true
  | _ => false

/-- The instance that the completion of an activity is for. -/
def WorkItem.completes : WorkItem → Option String
  | .activityCompleted instanceId _ _ _ => some instanceId
  | .activityFailed instanceId _ _ _ => some instanceId
  | _ => none

end Sporos.Vendor

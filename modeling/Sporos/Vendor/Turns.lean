import Sporos.Vendor.Replay

/-! # Turns and the history of an execution

What a turn of an orchestration commits: the events that the replay engine adds, the requests that
it hands to the queues, and, at the end of the execution, the cancellation of what is still open.
Over every run the history is well formed, and what has been handed to the queues is what the
history schedules. -/

namespace Sporos.Vendor.Replay

open Sporos.Lib.Maps

/-! ### Histories -/

namespace History

/-- `next_event_id`. -/
def nextEventId (history : List Event) : ℕ := (history.map Event.eventId).foldr max 0 + 1

/-- `append`, with the next id. -/
def append (history : List Event) (sourceEventId : Option ℕ) (kind : EventKind) : List Event :=
  history ++ [⟨nextEventId history, sourceEventId, kind⟩]

/-- The activities that a history schedules. -/
def scheduledActivities (history : List Event) : List ℕ :=
  (history.filter fun event => event.kind.isActivityScheduled).map Event.eventId

/-- The activities that a history has an answer to. -/
def endedActivities (history : List Event) : List ℕ :=
  (history.filter fun event => event.kind.isActivityEnd).filterMap Event.sourceEventId

/-- The activities that a history asks to cancel. -/
def cancelledActivities (history : List Event) : List ℕ :=
  (history.filter fun event => event.kind.activityCancelReason.isSome).filterMap Event.sourceEventId

/-- `compute_inflight_activities`, in the order of the history. -/
def computeInflightActivities (history : List Event) : List ℕ :=
  (scheduledActivities history).filter fun id => id ∉ endedActivities history
    ∧ id ∉ cancelledActivities history

/-- The subscriptions of a history, with the names of their queues. -/
def subscriptions (history : List Event) : List (ℕ × String) :=
  history.filterMap fun event =>
    match event.kind with
    | .queueSubscribed name => some (event.eventId, name)
    | _ => none

/-- The subscriptions that a history cancels. -/
def cancelledSubscriptions (history : List Event) : List ℕ :=
  (history.filter fun event => event.kind.queueCancelReason.isSome).filterMap Event.sourceEventId

/-- How many events of a queue have arrived. -/
def arrivalCount (history : List Event) (name : String) : ℕ :=
  history.countP fun event =>
    match event.kind with
    | .queueEventDelivered name' _ => name' = name
    | _ => false

/-- The subscriptions that are not cancelled take the arrivals of their queue in turn; the counts
are those of the arrivals that are taken. -/
def resolveSubscriptions (history : List Event) : List (ℕ × String) → List (String × ℕ) → List ℕ
  | [], _ => []
  | (id, name) :: subs, consumed =>
    if id ∈ cancelledSubscriptions history then resolveSubscriptions history subs consumed
    else if (get consumed name).getD 0 < arrivalCount history name then
      id :: resolveSubscriptions history subs (put consumed name ((get consumed name).getD 0 + 1))
    else resolveSubscriptions history subs consumed

/-- The subscriptions of `get_outstanding_schedule_ids`. -/
def outstandingSubscriptions (history : List Event) : List ℕ :=
  ((subscriptions history).map Prod.fst).filter fun id =>
    id ∉ resolveSubscriptions history (subscriptions history) []
      ∧ id ∉ cancelledSubscriptions history

/-- One event for each id. -/
def appendEach (history : List Event) (kind : EventKind) (ids : List ℕ) : List Event :=
  ids.foldl (fun history id => append history (some id) kind) history

end History

open History

/-- The event that ends an execution after a turn, and the reason for which its activities are
cancelled. -/
def TurnResult.ending : TurnResult → Option (EventKind × String)
  | .ongoing => none
  | .completed output => some (.orchestrationCompleted output, "orchestration_terminal_completed")
  | .failed details => some (.orchestrationFailed details, "orchestration_terminal_failed")
  | .continueAsNew input _ => some (.orchestrationContinuedAsNew input,
      "orchestration_terminal_continued_as_new")
  | .cancelled reason =>
    some (.orchestrationFailed (.application (.cancelled reason) "" false),
      "orchestration_terminal_failed")

/-- `emit_terminal_cancellation_breadcrumbs`, and the event that ends the execution. -/
def endExecution (history : List Event) (kind : EventKind) : List Event :=
  append (appendEach history (.queueSubscriptionCancelled "orchestration_terminal")
    (outstandingSubscriptions history))
    none kind

/-- The dispatcher cancels the activities in flight of an execution that has ended. -/
def cancelInflight (history : List Event) (reason : String) : List Event :=
  appendEach history (.activityCancelRequested reason) (computeInflightActivities history)

/-! ### Turns -/

/-- An execution of an orchestration, from the item that starts it. -/
structure Execution where
  orchestration : Orchestration
  instanceId : String
  executionId : ℕ
  name : String
  version : String
  input : String

/-- What a turn is given beside the history: the readings of the clock, and the messages. -/
structure Turn where
  clock : ℕ → ℕ
  messages : List WorkItem

/-- What a turn commits. -/
structure Commit where
  history : List Event
  workerItems : List WorkItem
  orchestratorItems : List WorkItem
  cancelledActivities : List ℕ
  deriving DecidableEq, Repr

namespace Execution

variable (x : Execution)

/-- The work item of an action. -/
def workerItem : Action → Option WorkItem
  | .callActivity id name input sessionId tag =>
    some (.activityExecute x.instanceId x.executionId id name input sessionId tag)
  | _ => none

/-- The message of an action, which is visible when the timer fires. -/
def timerItem : Action → Option WorkItem
  | .createTimer id fireAtMs => some (.timerFired x.instanceId x.executionId id fireAtMs)
  | _ => none

/-- The message that starts the next execution. -/
def continuation : TurnResult → List WorkItem
  | .continueAsNew input version => [.continueAsNew x.instanceId x.name input version]
  | _ => []

/-- `run_single_execution_atomic`, and what the dispatcher adds to it. -/
def commitTurn (history : List Event) (persistedHistoryLen : ℕ) (turn : Turn) : Commit :=
  let (result, engine) :=
    x.orchestration.runTurn turn.clock (x.orchestration.start x.instanceId x.input)
    x.executionId history persistedHistoryLen turn.messages
  match result.ending with
  | none =>
    ⟨engine.finalHistory, engine.pendingActions.filterMap x.workerItem,
      engine.pendingActions.filterMap x.timerItem,
      engine.cancelledActivityIds⟩
  | some (kind, reason) =>
    let history := endExecution engine.finalHistory kind
    ⟨cancelInflight history reason, [], x.continuation result,
      (engine.cancelledActivityIds ++ computeInflightActivities history).eraseDups⟩

/-- The execution has ended. -/
def ended (history : List Event) : Bool :=
  history.any fun event => event.kind.isTerminated || event.kind.isContinuedAsNew

/-- The first event of the execution. -/
def started : Event := ⟨1, none, .orchestrationStarted x.name x.version x.input none⟩

/-- `process_orchestration_item` within the attempts and the limits of the runtime: the messages of
an execution that has ended are only acknowledged. -/
def step (history : List Event) (turn : Turn) : Commit :=
  if ended history then ⟨history, [], [], []⟩
  else if history.isEmpty then x.commitTurn [x.started] 0 turn
  else x.commitTurn history history.length turn

/-- The history after one more turn, and what the turns have handed to the workers and to the
orchestrator queue. -/
def after (state : List Event × List WorkItem × List WorkItem) (turn : Turn) :
    List Event × List WorkItem × List WorkItem :=
  let commit := x.step state.1 turn
  (commit.history, state.2.1 ++ commit.workerItems, state.2.2 ++ commit.orchestratorItems)

/-- Turns one after another, from nothing. -/
def run (turns : List Turn) : List Event × List WorkItem × List WorkItem :=
  turns.foldl x.after ([], [], [])

end Execution

end Sporos.Vendor.Replay

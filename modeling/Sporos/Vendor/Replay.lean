import Mathlib.Data.Finset.Insert
import Sporos.Lib.Maps
import Sporos.Vendor.Events

/-! # The replay engine of the workflow runtime

An orchestration is not kept in memory between its turns. At each turn its code is started again,
the history is read event by event, and what the code asks for is matched with what the history says
that it asked for; only what goes beyond the history is new. Of the requests the model has those
that the workflows of the service make: activities, timers, events taken from a queue, and
continuing as new. -/

namespace Sporos.Vendor.Replay

open Sporos.Lib.Maps

/-! ### Orchestrations -/

/-- What an orchestration asks for; `Action` without what the engine adds. -/
inductive Request where
  | callActivity (name input : String) (sessionId tag : Option String)
  | createTimer (delayMs : ℕ)
  | dequeueEvent (name : String)
  | continueAsNew (input : String) (version : Option String)
  deriving DecidableEq, Repr

/-- What a schedule waits for. -/
inductive ScheduleKind where
  | activity
  | timer
  | queueDequeue
  deriving DecidableEq, Repr

/-- The future that is returned for a request. -/
def Request.scheduleKind : Request → Option ScheduleKind
  | .callActivity _ _ _ _ => some .activity
  | .createTimer _ => some .timer
  | .dequeueEvent _ => some .queueDequeue
  | .continueAsNew _ _ => none

/-- `CompletionResult`: what a future is answered with. -/
inductive CompletionResult where
  | activityOk (result : String)
  | activityErr (error : String)
  | timerFired
  | queueData (data : String)
  deriving DecidableEq, Repr

/-- The code of an orchestration up to where it returns or loops: it makes a request and gets a
token for it, it drops a future, or it awaits the first of some futures, which gives the place of
that one and its result. -/
inductive Code (σ : Type) where
  | finish (output : Except String String)
  | goto (state : σ)
  | request (action : Request) (next : ℕ → Code σ)
  | drop (token : ℕ) (next : Code σ)
  | await (tokens : List ℕ) (next : ℕ → CompletionResult → Code σ)

/-- The code does not loop before it has awaited something. -/
def Code.Guarded {σ : Type} : Code σ → Prop
  | .finish _ => True
  | .goto _ => False
  | .request _ next => ∀ token, (next token).Guarded
  | .drop _ next => next.Guarded
  | .await _ _ => True

/-- The code of an orchestration, in steps from one state to the next. -/
structure Orchestration where
  State : Type
  /-- The beginning, from the instance and the input. -/
  start : String → String → State
  body : State → Code State
  guarded : ∀ state, (body state).Guarded

/-! ### The context -/

/-- `CtxInner`, with the futures that the code holds: their kinds, and whether they are completed.
The arrivals of all queues stand in one list. -/
structure CtxInner where
  nextToken : ℕ
  emittedActions : List (ℕ × Request)
  completionResults : List (ℕ × CompletionResult)
  tokenBindings : List (ℕ × ℕ)
  queueSubscriptions : List (ℕ × String)
  queueArrivals : List (String × String)
  queueCancelledSubscriptions : Finset ℕ
  queueResolvedSubscriptions : Finset ℕ
  cancelledTokens : List ℕ
  futures : List (ℕ × ScheduleKind)
  completed : Finset ℕ

namespace CtxInner

/-- No future is open and nothing has been asked for. -/
def new : CtxInner := ⟨0, [], [], [], [], [], ∅, ∅, [], [], ∅⟩

/-- `emit_action`, with the `DurableFuture` that wraps the token. -/
def emitAction (ctx : CtxInner) (action : Request) : CtxInner × ℕ :=
  let token := ctx.nextToken + 1
  ({ ctx with
      nextToken := token
      emittedActions := ctx.emittedActions ++ [(token, action)]
      futures := ctx.futures ++ (action.scheduleKind.map fun kind => (token, kind)).toList }, token)

/-- The future of a token waits for a schedule. -/
def bindToken (ctx : CtxInner) (token scheduleId : ℕ) : CtxInner :=
  { ctx with tokenBindings := put ctx.tokenBindings token scheduleId }

/-- `deliver_result`; a result that no token is bound to is dropped. -/
def deliverResult (ctx : CtxInner) (scheduleId : ℕ) (result : CompletionResult) : CtxInner :=
  match ctx.tokenBindings.find? fun binding => binding.2 = scheduleId with
  | some binding => { ctx with completionResults := put ctx.completionResults binding.1 result }
  | none => ctx

/-- A subscription joins the end of the line for its queue. -/
def bindQueueSubscription (ctx : CtxInner) (scheduleId : ℕ) (name : String) : CtxInner :=
  { ctx with queueSubscriptions := ctx.queueSubscriptions ++ [(scheduleId, name)] }

/-- A message arrives at a queue. -/
def deliverQueueMessage (ctx : CtxInner) (name data : String) : CtxInner :=
  { ctx with queueArrivals := ctx.queueArrivals ++ [(name, data)] }

/-- The subscription takes no more messages. -/
def markQueueSubscriptionCancelled (ctx : CtxInner) (scheduleId : ℕ) : CtxInner :=
  { ctx with queueCancelledSubscriptions := insert scheduleId ctx.queueCancelledSubscriptions }

/-- What `get_queue_message` finds for a subscription: the active subscriptions before it take the
arrivals before its own. -/
def queueMessage (ctx : CtxInner) (scheduleId : ℕ) : Option String :=
  match get ctx.queueSubscriptions scheduleId with
  | none => none
  | some name =>
    if scheduleId ∈ ctx.queueResolvedSubscriptions then none
    else if scheduleId ∈ ctx.queueCancelledSubscriptions then none
    else
      let before := (ctx.queueSubscriptions.takeWhile fun sub =>
          sub.1 ≠ scheduleId).filter fun sub =>
        sub.2 = name ∧ sub.1 ∉ ctx.queueCancelledSubscriptions
      let arrivals := (ctx.queueArrivals.filter fun arrival => arrival.1 = name).map Prod.snd
      arrivals[before.length]?

/-- `mark_token_cancelled`, by the drop of a future that is not completed. -/
def dropFuture (ctx : CtxInner) (token : ℕ) : CtxInner :=
  if token ∈ ctx.completed then ctx
    else { ctx with cancelledTokens := ctx.cancelledTokens ++ [token] }

/-- `get_cancelled_activity_ids` and `get_cancelled_queue_ids`: the schedules of the dropped futures
of the kind, in the order in which they were dropped; the code has them in a set. -/
def cancelledIds (ctx : CtxInner) (kind : ScheduleKind) : List ℕ :=
  ctx.cancelledTokens.filterMap fun token =>
    if get ctx.futures token = some kind then get ctx.tokenBindings token else none

/-- What a poll of a future finds. One that is completed has been moved out, and is not polled
again. -/
def ready (ctx : CtxInner) (token : ℕ) : Option CompletionResult :=
  if token ∈ ctx.completed then none
  else
    match get ctx.futures token with
    | none => none
    | some .activity =>
      match get ctx.completionResults token with
      | some (.activityOk result) => some (.activityOk result)
      | some (.activityErr error) => some (.activityErr error)
      | _ => none
    | some .timer =>
      match get ctx.completionResults token with
      | some .timerFired => some .timerFired
      | _ => none
    | some .queueDequeue =>
      (get ctx.tokenBindings token).bind fun scheduleId =>
        (ctx.queueMessage scheduleId).map .queueData

/-- The context after a poll that has found something. -/
def taken (ctx : CtxInner) (token : ℕ) : CtxInner :=
  { ctx with
    queueResolvedSubscriptions :=
      if get ctx.futures token = some .queueDequeue then
        (get ctx.tokenBindings token).elim ctx.queueResolvedSubscriptions fun scheduleId =>
          insert scheduleId ctx.queueResolvedSubscriptions
      else ctx.queueResolvedSubscriptions
    completed := insert token ctx.completed }

/-- The futures are polled in turn, up to one that is ready. -/
def pollFirst (ctx : CtxInner) : List ℕ → Option (ℕ × CompletionResult × CtxInner)
  | [] => none
  | token :: tokens =>
    match ctx.ready token with
    | some result => some (0, result, ctx.taken token)
    | none => (ctx.pollFirst tokens).map fun found => (found.1 + 1, found.2)

/-- How many futures may still become ready without another event. -/
def pendingResults (ctx : CtxInner) : ℕ :=
  (ctx.completionResults.filter fun row => row.1 ∉ ctx.completed).length
    + (ctx.queueSubscriptions.filter fun sub => sub.1 ∉ ctx.queueResolvedSubscriptions).length

end CtxInner

/-! ### Polling -/

/-- The code runs up to where it returns, loops or awaits something. -/
def Code.run {σ : Type} : Code σ → CtxInner → CtxInner × Code σ
  | .request action next, ctx => (next (ctx.emitAction action).2).run (ctx.emitAction action).1
  | .drop token next, ctx => next.run (ctx.dropFuture token)
  | code, ctx => (ctx, code)

namespace Orchestration

variable (o : Orchestration)

/-- The code runs up to where it returns or awaits something. -/
def enter (ctx : CtxInner) (code : Code o.State) : CtxInner × Code o.State :=
  match code.run ctx with
  | (ctx, .goto state) => (o.body state).run ctx
  | stopped => stopped

/-- The futures that are ready are taken one after another. Each time round one is completed, so
that the bound on the rounds is never what stops it. -/
def pollLoop : ℕ → CtxInner → Code o.State → CtxInner × Code o.State
  | n + 1, ctx, .await tokens next =>
    match ctx.pollFirst tokens with
    | none => (ctx, .await tokens next)
    | some (i, result, ctx) =>
      pollLoop n (o.enter ctx (next i result)).1 (o.enter ctx (next i result)).2
  | _, ctx, code => (ctx, code)

/-- `poll_once`. -/
def poll (ctx : CtxInner) (code : Code o.State) : CtxInner × Code o.State :=
  o.pollLoop (o.enter ctx code).1.pendingResults (o.enter ctx code).1 (o.enter ctx code).2

end Orchestration

/-! ### Actions -/

/-- `Action`. -/
inductive Action where
  | callActivity (schedulingEventId : ℕ) (name input : String) (sessionId tag : Option String)
  | createTimer (schedulingEventId fireAtMs : ℕ)
  | dequeueEvent (schedulingEventId : ℕ) (name : String)
  | continueAsNew (input : String) (version : Option String)
  deriving DecidableEq, Repr

/-- The action of a request, from the reading of the clock at the request; `update_action_event_id`.
-/
def Request.action (request : Request) (now eventId : ℕ) : Action :=
  match request with
  | .callActivity name input sessionId tag => .callActivity eventId name input sessionId tag
  | .createTimer delayMs => .createTimer eventId (min (now + delayMs) (2 ^ 64 - 1))
  | .dequeueEvent name => .dequeueEvent eventId name
  | .continueAsNew input version => .continueAsNew input version

/-- `action_to_event`. -/
def Action.event (eventId : ℕ) : Action → Option Event
  | .callActivity _ name input sessionId tag =>
      some ⟨eventId, none, .activityScheduled name input sessionId tag⟩
  | .createTimer _ fireAtMs => some ⟨eventId, none, .timerCreated fireAtMs⟩
  | .dequeueEvent _ name => some ⟨eventId, none, .queueSubscribed name⟩
  | .continueAsNew _ _ => none

/-- The input and the version that the next execution starts with. -/
def Action.continuation : Action → Option (String × Option String)
  | .continueAsNew input version => some (input, version)
  | _ => none

/-- `action_matches_event_kind`: timers match by their place alone. -/
def Request.matchesEventKind : Request → EventKind → Bool
  | .callActivity name input sessionId tag, .activityScheduled name' input' sessionId' tag' =>
    name = name' ∧ input = input' ∧ sessionId = sessionId' ∧ tag = tag'
  | .createTimer _, .timerCreated _ => true
  | .dequeueEvent name, .queueSubscribed name' => name = name'
  | _, _ => false

/-! ### The engine -/

/-- `TurnResult`; a turn that continues is `ongoing`. -/
inductive TurnResult where
  | ongoing
  | completed (output : String)
  | failed (details : ErrorDetails)
  | continueAsNew (input : String) (version : Option String)
  | cancelled (reason : String)
  deriving DecidableEq, Repr

/-- `ReplayEngine`: a turn over a history. -/
structure ReplayEngine where
  executionId : ℕ
  historyDelta : List Event
  pendingActions : List Action
  cancelledActivityIds : List ℕ
  baselineHistory : List Event
  nextEventId : ℕ
  abortError : Option ErrorDetails
  persistedHistoryLen : ℕ
  deriving DecidableEq, Repr

namespace ReplayEngine

/-- `new` and `with_persisted_history_len`. -/
def new (executionId : ℕ) (baselineHistory : List Event) (persistedHistoryLen : ℕ) :
    ReplayEngine where
  executionId
  historyDelta := []
  pendingActions := []
  cancelledActivityIds := []
  baselineHistory
  nextEventId := (baselineHistory.getLast?.map fun event => event.eventId + 1).getD 1
  abortError := none
  persistedHistoryLen

/-- `baseline_history` and then `history_delta`. -/
def finalHistory (e : ReplayEngine) : List Event := e.baselineHistory ++ e.historyDelta

/-- An event with the next id. -/
def push (e : ReplayEngine) (sourceEventId : Option ℕ) (kind : EventKind) : ReplayEngine :=
  { e with
    historyDelta := e.historyDelta ++ [⟨e.nextEventId, sourceEventId, kind⟩]
    nextEventId := e.nextEventId + 1 }

/-! #### Completions -/

/-- `is_completion_for_current_execution`. -/
def isCompletionForCurrentExecution (e : ReplayEngine) : WorkItem → Bool
  | .activityCompleted _ executionId _ _ | .activityFailed _ executionId _ _
  | .timerFired _ executionId _ _
  | .subOrchCompleted _ executionId _ _ | .subOrchFailed _ executionId _ _ =>
      executionId = e.executionId
  | .externalRaised _ _ _ | .queueMessage _ _ _ | .cancelInstance _ _ => true
  | _ => false

/-- `is_completion_already_in_history`; a failure of an activity is not looked for. -/
def isCompletionAlreadyInHistory (e : ReplayEngine) : WorkItem → Bool
  | .activityCompleted _ _ id _ =>
    e.baselineHistory.any fun event => event.sourceEventId = some id
      ∧ event.kind.isActivityCompleted
  | .timerFired _ _ id _ => e.baselineHistory.any fun event => event.sourceEventId = some id
    ∧ event.kind.isTimerFired
  | _ => false

/-- The completion has come earlier in the same turn. -/
def isAlreadyInDelta (e : ReplayEngine) : WorkItem → Bool
  | .activityCompleted _ _ id _ | .activityFailed _ _ id _ =>
    e.historyDelta.any fun event => event.sourceEventId = some id ∧ event.kind.isActivityEnd
  | .timerFired _ _ id _ => e.historyDelta.any fun event => event.sourceEventId = some id
    ∧ event.kind.isTimerFired
  | _ => false

/-- What was scheduled under an id. -/
def scheduleKind (e : ReplayEngine) (id : ℕ) : Option String :=
  e.finalHistory.findSome? fun event =>
    if event.eventId = id then
      match event.kind with
      | .activityScheduled _ _ _ _ => some "activity"
      | .timerCreated _ => some "timer"
      | _ => none
    else none

/-- The error of a completion of the kind `got` with nothing of the kind under its id. -/
def unmatched (e : ReplayEngine) (id : ℕ) (got subject : String) : Option ErrorDetails :=
  match e.scheduleKind id with
  | some expected =>
    if expected = got then none
    else some (nondeterminismError
      s!"completion kind mismatch for id={id}, expected '{expected}', got '{got}'")
  | none => some (nondeterminismError s!"no matching schedule for {subject} id={id}")

/-- What is wrong with a completion that the history has no schedule for. -/
def completionError (e : ReplayEngine) : WorkItem → Option ErrorDetails
  | .activityCompleted _ _ id _ | .activityFailed _ _ id _ => e.unmatched id "activity" "completion"
  | .timerFired _ _ id _ => e.unmatched id "timer" "timer"
  | .subOrchCompleted _ _ id _ | .subOrchFailed _ _ id _ =>
      e.unmatched id "suborchestration" "sub-orchestration"
  | _ => none

/-- The event of a completion, and the error that it aborts the turn with. -/
def completionEvent (e : ReplayEngine) : WorkItem →
    Option (Option ℕ × EventKind) × Option ErrorDetails
  | .activityCompleted _ _ id result => (some (some id, .activityCompleted result), none)
  | .activityFailed _ _ id details =>
    (some (some id, .activityFailed details), if details.isSystem then some details else none)
  | .timerFired _ _ id fireAtMs => (some (some id, .timerFired fireAtMs), none)
  | .externalRaised _ name data => (some (none, .externalEvent name data), none)
  | .queueMessage _ name data => (some (none, .queueEventDelivered name data), none)
  | .cancelInstance _ reason =>
    if (e.baselineHistory.any fun event => event.kind.isTerminated)
        || e.finalHistory.any fun event => event.kind.cancelReason.isSome then (none, none)
    else (some (none, .orchestrationCancelRequested reason), none)
  | _ => (none, none)

/-- One message of `prep_completions`. -/
def prepCompletion (e : ReplayEngine) (msg : WorkItem) : ReplayEngine :=
  if !e.isCompletionForCurrentExecution msg || e.isCompletionAlreadyInHistory msg
    || e.isAlreadyInDelta msg then e
  else
    match e.completionError msg with
    | some error => { e with abortError := some error }
    | none =>
      let e' := { e with abortError := e.abortError.or (e.completionEvent msg).2 }
      match (e.completionEvent msg).1 with
      | some (sourceEventId, kind) => e'.push sourceEventId kind
      | none => e'

/-- `prep_completions`: the messages become events of the turn. -/
def prepCompletions (e : ReplayEngine) (messages : List WorkItem) : ReplayEngine :=
  messages.foldl prepCompletion e

end ReplayEngine

/-! ### The evaluation of a turn -/

/-- The local variables of `execute_orchestration`. -/
structure Evaluation (σ : Type) where
  ctx : CtxInner
  fut : Code σ
  emittedActions : List (ℕ × Request)
  openSchedules : Finset ℕ
  scheduleKinds : List (ℕ × ScheduleKind)
  mustPoll : Bool
  outputOpt : Option (Except String String)

namespace Evaluation

/-- Before the first poll. -/
def init {σ : Type} (state : σ) : Evaluation σ := ⟨.new, .goto state, [], ∅, [], true, none⟩

/-- `match_and_bind_schedule`. -/
def matchAndBindSchedule {σ : Type} (ev : Evaluation σ) (event : Event) (kind : ScheduleKind) :
    Except ErrorDetails (Evaluation σ) :=
  match ev.emittedActions with
  | [] => .error (nondeterminismError "history schedule but no emitted action")
  | (token, action) :: rest =>
    if action.matchesEventKind event.kind then
      .ok { ev with
        ctx := ev.ctx.bindToken token event.eventId
        emittedActions := rest
        openSchedules := insert event.eventId ev.openSchedules
        scheduleKinds := put ev.scheduleKinds event.eventId kind }
    else .error (nondeterminismError "schedule mismatch")

/-- An event of a request that the code does not make. -/
def takeAction {σ : Type} (ev : Evaluation σ) (message : String) :
    Except ErrorDetails (Evaluation σ) :=
  match ev.emittedActions with
  | [] => .ok ev
  | _ => .error (nondeterminismError message)

/-- The result of an open schedule is delivered. -/
def deliver {σ : Type} (ev : Evaluation σ) (sourceEventId : Option ℕ) (result : CompletionResult) :
    Except ErrorDetails (Evaluation σ) :=
  match sourceEventId with
  | none => .ok ev
  | some id =>
    if id ∈ ev.openSchedules then
      .ok
        { ev with
          ctx := ev.ctx.deliverResult id result
          openSchedules := ev.openSchedules.erase id
          mustPoll := true }
    else .error (nondeterminismError "completion without open schedule")

/-- `apply_history_event`. -/
def applyHistoryEvent {σ : Type} (ev : Evaluation σ) (event : Event) :
    Except ErrorDetails (Evaluation σ) :=
  match event.kind with
  | .activityScheduled _ _ _ _ => ev.matchAndBindSchedule event .activity
  | .timerCreated _ => ev.matchAndBindSchedule event .timer
  | .queueSubscribed name => do
    let ev ← ev.matchAndBindSchedule event .queueDequeue
    return { ev with ctx := ev.ctx.bindQueueSubscription event.eventId name, mustPoll := true }
  | .activityCompleted result => do
    let ev' ← ev.deliver event.sourceEventId (.activityOk result)
    match event.sourceEventId with
    | some id =>
      if get ev.scheduleKinds id = some .activity then return ev'
      else throw (nondeterminismError "completion kind mismatch: expected activity")
    | none => return ev'
  | .activityFailed details => ev.deliver event.sourceEventId (.activityErr details.displayMessage)
  | .timerFired _ => ev.deliver event.sourceEventId .timerFired
  | .queueSubscriptionCancelled _ =>
    match event.sourceEventId with
    | some id => return { ev with ctx := ev.ctx.markQueueSubscriptionCancelled id }
    | none => return ev
  | .queueEventDelivered name data =>
    return { ev with ctx := ev.ctx.deliverQueueMessage name data, mustPoll := true }
  | .customStatusUpdated _ => ev.takeAction "custom status mismatch"
  | .keyValueSet _ _ _ => ev.takeAction "kv set mismatch"
  | .keyValueCleared _ => ev.takeAction "kv clear mismatch"
  | .keyValuesCleared => ev.takeAction "kv clear_all mismatch"
  | .orchestrationStarted _ _ _ _ | .orchestrationCompleted _ | .orchestrationFailed _
  | .orchestrationContinuedAsNew _ | .orchestrationCancelRequested _ | .activityCancelRequested _
  | .externalEvent _ _ | .other _ _ => return ev

end Evaluation

namespace Orchestration

variable (o : Orchestration)

/-- `poll_orchestration_future`, with what is emitted taken out of the context. -/
def pollOrchestrationFuture (ev : Evaluation o.State) : Evaluation o.State :=
  let polled := o.poll ev.ctx ev.fut
  { ev with
    ctx := { polled.1 with emittedActions := [] }
    fut := polled.2
    emittedActions := ev.emittedActions ++ polled.1.emittedActions
    outputOpt :=
      match polled.2 with
      | .finish output => some output
      | _ => none }

/-- The code is polled if something has happened since it was. -/
def settle (ev : Evaluation o.State) : Evaluation o.State :=
  if ev.mustPoll && ev.outputOpt.isNone then { o.pollOrchestrationFuture ev with
    mustPoll := false } else ev

/-- The loop of `execute_orchestration` over the history. -/
def readHistory : List Event → Evaluation o.State → Except ErrorDetails (Evaluation o.State)
  | [], ev => .ok ev
  | event :: events, ev =>
    if (o.settle ev).outputOpt.isSome then .ok (o.settle ev)
    else do
      let ev ← (o.settle ev).applyHistoryEvent event
      readHistory events ev

end Orchestration

/-! ### New actions -/

/-- One action of `convert_emitted_actions`, with the reading of the clock for each token. -/
def convertEmittedAction (clock : ℕ → ℕ) (state : CtxInner × ReplayEngine) (emitted : ℕ × Request) :
    CtxInner × ReplayEngine :=
  let eventId := state.2.nextEventId
  let action := emitted.2.action (clock emitted.1) eventId
  let ctx := state.1.bindToken emitted.1 eventId
  let ctx :=
    match emitted.2 with
    | .dequeueEvent name => ctx.bindQueueSubscription eventId name
    | _ => ctx
  (ctx, { state.2 with
    nextEventId := eventId + 1
    historyDelta := state.2.historyDelta ++ (action.event eventId).toList
    pendingActions := state.2.pendingActions ++ [action] })

/-- The requests of a round become events and actions, in their order. -/
def convertEmittedActions (clock : ℕ → ℕ) (emitted : List (ℕ × Request))
    (state : CtxInner × ReplayEngine) : CtxInner × ReplayEngine :=
  emitted.foldl (convertEmittedAction clock) state

namespace Orchestration

variable (o : Orchestration)

/-- The emitted actions of an evaluation are converted. -/
def convert (clock : ℕ → ℕ) (state : Evaluation o.State × ReplayEngine) :
    Evaluation o.State × ReplayEngine :=
  let converted := convertEmittedActions clock state.1.emittedActions (state.1.ctx, state.2)
  ({ state.1 with ctx := converted.1, emittedActions := [] }, converted.2)

/-- The error of a turn that does not come to rest. -/
def quiescenceError : ErrorDetails :=
  .infrastructure "quiescence_loop"
    ("quiescence loop exceeded 100 iterations —                      "
    ++ "orchestration is emitting unbounded persistent event subscriptions") false

/-- `run_quiescence_loop`, with the number of iterations that are left. What has been converted
stays when it fails. -/
def runQuiescenceLoop (clock : ℕ → ℕ) : ℕ → Evaluation o.State × ReplayEngine →
    Except (ErrorDetails × ReplayEngine) (Evaluation o.State × ReplayEngine)
  | 0, (_, engine) => .error (quiescenceError, engine)
  | n + 1, (ev, engine) =>
    if ev.outputOpt.isSome || engine.pendingActions.isEmpty then .ok (ev, engine)
    else
      let next := o.convert clock (o.pollOrchestrationFuture ev, engine)
      if next.2.pendingActions.length = engine.pendingActions.length then
        if n = 0 then .error (quiescenceError, next.2) else .ok next
      else runQuiescenceLoop clock n next

end Orchestration

/-! ### The end of a turn -/

namespace ReplayEngine

/-- The ids of dropped futures that the persisted history has recorded. -/
def droppedIn (e : ReplayEngine) (cancelled : EventKind → Option String) : List ℕ :=
  (e.baselineHistory.take e.persistedHistoryLen).filterMap fun event =>
    if cancelled event.kind = some "dropped_future" then event.sourceEventId else none

/-- The ids under which the persisted history has schedules. -/
def scheduledIn (e : ReplayEngine) (isSchedule : EventKind → Bool) : List ℕ :=
  ((e.baselineHistory.take e.persistedHistoryLen).filter fun event =>
    isSchedule event.kind).map Event.eventId

/-- What the history says was dropped is dropped by the code. -/
def reproduces (e : ReplayEngine) (cancelled : EventKind → Option String)
    (isSchedule : EventKind → Bool) (dropped : List ℕ) : Bool :=
  (e.droppedIn cancelled).all fun id => id ∈ dropped && id ∈ e.scheduledIn isSchedule

/-- The ids with a cancellation in the history. -/
def alreadyCancelled (e : ReplayEngine) (cancelled : EventKind → Option String) : List ℕ :=
  e.finalHistory.filterMap fun event => if (cancelled event.kind).isSome
    then event.sourceEventId else none

/-- The cancellation of an activity is recorded and passed on, once. -/
def cancelActivity (e : ReplayEngine) (id : ℕ) : ReplayEngine :=
  if id ∈ e.alreadyCancelled EventKind.activityCancelReason then e
  else { e.push (some id) (.activityCancelRequested "dropped_future") with
    cancelledActivityIds := e.cancelledActivityIds ++ [id] }

/-- The cancellation of a subscription is recorded, once. -/
def cancelQueueSubscription (e : ReplayEngine) (id : ℕ) : ReplayEngine :=
  if id ∈ e.alreadyCancelled EventKind.queueCancelReason then e
  else e.push (some id) (.queueSubscriptionCancelled "dropped_future")

/-- `collect_cancelled_from_context`. -/
def collectCancelledFromContext (e : ReplayEngine) (ctx : CtxInner) :
    Except ErrorDetails ReplayEngine :=
  if !e.reproduces EventKind.activityCancelReason EventKind.isActivityScheduled
      (ctx.cancelledIds .activity) then
    .error (nondeterminismError "cancellation mismatch (activities)")
  else if !e.reproduces EventKind.queueCancelReason EventKind.isQueueSubscribed
      (ctx.cancelledIds .queueDequeue) then
    .error (nondeterminismError "cancellation mismatch (persistent waits)")
  else
    .ok ((ctx.cancelledIds .queueDequeue).foldl cancelQueueSubscription
      ((ctx.cancelledIds .activity).foldl cancelActivity e))

/-- `finalize_turn`. -/
def finalizeTurn (e : ReplayEngine) (ctx : CtxInner) (outputOpt : Option (Except String String)) :
    TurnResult × ReplayEngine :=
  match e.finalHistory.findSome? fun event => event.kind.cancelReason with
  | some reason => (.cancelled reason, e)
  | none =>
    match e.pendingActions.findSome? Action.continuation with
    | some (input, version) => (.continueAsNew input version, e)
    | none =>
      match e.collectCancelledFromContext ctx with
      | .error details => (.failed details, e)
      | .ok e =>
        match outputOpt with
        | some (.ok output) => (.completed output, e)
        | some (.error error) => (.failed (.application .orchestrationFailed error false), e)
        | none => (.ongoing, e)

end ReplayEngine

namespace Orchestration

variable (o : Orchestration)

/-- The dropped subscriptions are cancelled before new ones are bound. -/
def cancelDropped (ev : Evaluation o.State) : Evaluation o.State :=
  { ev with
    ctx :=
      (ev.ctx.cancelledIds .queueDequeue).foldl CtxInner.markQueueSubscriptionCancelled ev.ctx }

/-- What `execute_orchestration` does when the history has been read, up to `finalize_turn`. -/
def finish (clock : ℕ → ℕ) (e : ReplayEngine) (ev : Evaluation o.State) :
    Except (ErrorDetails × ReplayEngine) (Evaluation o.State × ReplayEngine) :=
  o.runQuiescenceLoop clock 100 (o.convert clock (o.cancelDropped (o.settle ev), e))

/-- `execute_orchestration`. -/
def executeOrchestration (clock : ℕ → ℕ) (state : o.State) (e : ReplayEngine) :
    TurnResult × ReplayEngine :=
  match e.abortError with
  | some details => (.failed details, e)
  | none =>
    if e.finalHistory.any fun event => event.kind.isTerminated || event.kind.isContinuedAsNew
      then (.ongoing, e)
    else
      match e.finalHistory with
      | [] => (.failed (nondeterminismError "corrupted history: empty"), e)
      | first :: _ =>
        if !first.kind.isStarted then
          (.failed (nondeterminismError
            "corrupted history: first event must be OrchestrationStarted"), e)
        else
          match o.readHistory e.finalHistory (.init state) with
          | .error details => (.failed details, e)
          | .ok ev =>
            match o.finish clock e ev with
            | .error (details, e) => (.failed details, e)
            | .ok (ev, e) => e.finalizeTurn ev.ctx ev.outputOpt

/-- The engine's part of `run_single_execution_atomic`. -/
def runTurn (clock : ℕ → ℕ) (state : o.State) (executionId : ℕ) (history : List Event)
    (persistedHistoryLen : ℕ) (messages : List WorkItem) : TurnResult × ReplayEngine :=
  o.executeOrchestration clock state
    ((ReplayEngine.new executionId history persistedHistoryLen).prepCompletions messages)

end Orchestration

end Sporos.Vendor.Replay

import Sporos.Vendor.Bindings
import Sporos.Vendor.Turns

/-! # Runs of turns

A history is well formed if its ids increase, every result and every cancellation in it is of
something of its kind that was scheduled before, and nothing is completed, fired or cancelled twice.
Every turn keeps this, whatever the code of the orchestration, the messages and the clock are; and
while the execution goes on, what the turns have handed to the queues is what the history schedules.
-/

namespace Sporos.Vendor.Replay

open History

/-! ### Well-formed histories -/

/-- The schedule that an event is a result of, or the cancellation. -/
def answers (event : Event) : Option (ScheduleKind × ℕ) :=
  match event.kind with
  | .activityCompleted _ | .activityFailed _ => event.sourceEventId.map fun id => (.activity, id)
  | .timerFired _ => event.sourceEventId.map fun id => (.timer, id)
  | .activityCancelRequested _ => event.sourceEventId.map fun id => (.activity, id)
  | .queueSubscriptionCancelled _ => event.sourceEventId.map fun id => (.queueDequeue, id)
  | _ => none

/-- What is said of a schedule once. -/
inductive Note where
  | completed
  | fired
  | activityCancelled
  | subscriptionCancelled
  deriving DecidableEq

/-- The single answer that an event gives, and the schedule that it answers. -/
def note (event : Event) : Option (Note × ℕ) :=
  match event.kind with
  | .activityCompleted _ => event.sourceEventId.map fun id => (.completed, id)
  | .timerFired _ => event.sourceEventId.map fun id => (.fired, id)
  | .activityCancelRequested _ => event.sourceEventId.map fun id => (.activityCancelled, id)
  | .queueSubscriptionCancelled _ => event.sourceEventId.map fun id => (.subscriptionCancelled, id)
  | _ => none

/-- Ids rise, each answer has its schedule before it, and no schedule is answered twice alike. -/
structure WellFormed (history : List Event) : Prop where
  increasing : history.Pairwise fun event event' => event.eventId < event'.eventId
  answered : ∀ event ∈ history, ∀ schedule, answers event = some schedule →
    ∃ event' ∈ history, event'.eventId = schedule.2 ∧ event'.eventId < event.eventId
      ∧ schedules event' = some schedule.1
  once : (history.filterMap note).Nodup

variable {history : List Event} {event : Event} {id : ℕ} {kind : EventKind}

theorem note_completed : note event = some (.completed, id) ↔
    event.sourceEventId = some id ∧ event.kind.isActivityCompleted = true := by
  obtain ⟨eventId, sourceEventId, kind⟩ := event
  cases kind <;> cases sourceEventId <;> simp [note, EventKind.isActivityCompleted]

theorem note_fired : note event = some (.fired, id) ↔
    event.sourceEventId = some id ∧ event.kind.isTimerFired = true := by
  obtain ⟨eventId, sourceEventId, kind⟩ := event
  cases kind <;> cases sourceEventId <;> simp [note, EventKind.isTimerFired]

theorem note_activityCancelled : note event = some (.activityCancelled, id) ↔
    event.sourceEventId = some id ∧ event.kind.activityCancelReason.isSome = true := by
  obtain ⟨eventId, sourceEventId, kind⟩ := event
  cases kind <;> cases sourceEventId <;> simp [note, EventKind.activityCancelReason]

theorem note_subscriptionCancelled : note event = some (.subscriptionCancelled, id) ↔
    event.sourceEventId = some id ∧ event.kind.queueCancelReason.isSome = true := by
  obtain ⟨eventId, sourceEventId, kind⟩ := event
  cases kind <;> cases sourceEventId <;> simp [note, EventKind.queueCancelReason]

theorem WellFormed.concat (h : WellFormed history)
    (hid : ∀ event' ∈ history, event'.eventId < event.eventId)
    (hanswer : ∀ schedule, answers event = some schedule →
    ScheduledIn history schedule.1 schedule.2)
    (hnote : ∀ said, note event = some said → said ∉ history.filterMap note) :
      WellFormed (history ++ [event]) where
  increasing := by
    rw [List.pairwise_append]
    refine ⟨h.increasing, List.pairwise_singleton _ _, fun event' hmem event'' hlast => ?_⟩
    rw [List.mem_singleton.mp hlast]
    exact hid event' hmem
  answered := by
    intro event' hmem schedule hschedule
    rcases List.mem_append.mp hmem with hold | hlast
    · obtain ⟨event'', hmem'', hfound⟩ := h.answered event' hold schedule hschedule
      exact ⟨event'', List.mem_append_left _ hmem'', hfound⟩
    · obtain rfl := List.mem_singleton.mp hlast
      obtain ⟨event'', hmem'', heq, hkind⟩ := hanswer schedule hschedule
      exact ⟨event'', List.mem_append_left _ hmem'', heq, hid event'' hmem'', hkind⟩
  once := by
    rw [List.filterMap_append, List.nodup_append]
    refine ⟨h.once, ?_, fun said hsaid said' hsaid' heq => ?_⟩
    · cases hcase : note event <;> simp [hcase]
    · subst heq
      obtain ⟨event', hlast, hsame⟩ := List.mem_filterMap.mp hsaid'
      obtain rfl := List.mem_singleton.mp hlast
      exact hnote said hsame hsaid

/-! ### The history manager -/

namespace History

theorem lt_nextEventId {history : List Event} {event : Event} (h : event ∈ history) :
    event.eventId < nextEventId history := by
  unfold nextEventId
  induction history with
  | nil => exact absurd h List.not_mem_nil
  | cons event' history ih =>
    rw [List.map_cons, List.foldr_cons]
    rcases List.mem_cons.mp h with rfl | hmem
    · omega
    · have := ih hmem
      omega

theorem prefix_append (history : List Event) (sourceEventId : Option ℕ) (kind : EventKind) :
    history <+: append history sourceEventId kind := List.prefix_append _ _

theorem prefix_appendEach (history : List Event) (kind : EventKind) (ids : List ℕ) :
    history <+: appendEach history kind ids := by
  induction ids generalizing history with
  | nil => exact List.prefix_rfl
  | cons id ids ih => exact (prefix_append history (some id) kind).trans (ih _)

/-- What is appended for some ids. -/
theorem appendEach_eq (history : List Event) (kind : EventKind) (ids : List ℕ) :
    ∃ added : List Event, appendEach history kind ids = history ++ added ∧ (∀ event ∈ added,
      event.kind = kind)
      ∧ added.map Event.sourceEventId = ids.map some := by
  induction ids generalizing history with
  | nil => exact ⟨[], (List.append_nil _).symm, fun event h => absurd h List.not_mem_nil, rfl⟩
  | cons id ids ih =>
    obtain ⟨added, heq, hkind, hsource⟩ := ih (append history (some id) kind)
    refine ⟨⟨nextEventId history, some id, kind⟩ :: added, ?_, ?_, ?_⟩
    · exact heq.trans (by simp [append])
    · exact List.forall_mem_cons.mpr ⟨rfl, hkind⟩
    · rw [List.map_cons, List.map_cons, hsource]

end History

theorem WellFormed.append (h : WellFormed history) {sourceEventId : Option ℕ}
    (hanswer : ∀ schedule, answers ⟨nextEventId history, sourceEventId, kind⟩ = some schedule →
      ScheduledIn history schedule.1 schedule.2)
    (hnote : ∀ said, note ⟨nextEventId history, sourceEventId, kind⟩ = some said →
      said ∉ history.filterMap note) :
    WellFormed (append history sourceEventId kind) :=
      h.concat (fun _ hmem => lt_nextEventId hmem) hanswer hnote

/-- Something is said of each of some schedules. -/
theorem WellFormed.appendEach (h : WellFormed history) {ids : List ℕ} (said : Note)
    (schedule : ScheduleKind)
    (hanswer : ∀ eventId id, answers ⟨eventId, some id, kind⟩ = some (schedule, id))
    (hnote : ∀ eventId id, note ⟨eventId, some id, kind⟩ = some (said, id)) (hnodup : ids.Nodup)
    (hscheduled : ∀ id ∈ ids, ScheduledIn history schedule id)
    (hnew : ∀ id ∈ ids, (said, id) ∉ history.filterMap note) :
    WellFormed (History.appendEach history kind ids) := by
  induction ids generalizing history with
  | nil => exact h
  | cons id ids ih =>
    obtain ⟨hid, hids⟩ := List.nodup_cons.mp hnodup
    refine ih (h.append (fun found hfound => ?_) fun said' hsaid' => ?_) hids (fun id' hid' => ?_)
      fun id' hid' => ?_
    · rw [hanswer, Option.some_inj] at hfound
      exact hfound ▸ hscheduled id List.mem_cons_self
    · rw [hnote, Option.some_inj] at hsaid'
      exact hsaid' ▸ hnew id List.mem_cons_self
    · exact (hscheduled id' (List.mem_cons_of_mem _ hid')).mono (prefix_append _ _ _)
    · change (said, id') ∉ List.filterMap note (history
        ++ [(⟨nextEventId history, some id, kind⟩ : Event)])
      rw [List.filterMap_append, List.mem_append, not_or]
      refine ⟨hnew id' (List.mem_cons_of_mem _ hid'), fun hmem => ?_⟩
      obtain ⟨event, hlast, hsaid⟩ := List.mem_filterMap.mp hmem
      rw [List.mem_singleton.mp hlast, hnote] at hsaid
      obtain rfl : id = id' := congrArg Prod.snd (Option.some_inj.mp hsaid)
      exact hid hid'

/-! ### The engine -/

section

variable (x : Execution)

/-- The work item of what an event schedules. -/
def scheduledWork (event : Event) : Option WorkItem :=
  match event.kind with
  | .activityScheduled name input sessionId tag =>
    some (.activityExecute x.instanceId x.executionId event.eventId name input sessionId tag)
  | _ => none

/-- The message of the timer that an event creates. -/
def scheduledTimer (event : Event) : Option WorkItem :=
  match event.kind with
  | .timerCreated fireAtMs => some (.timerFired x.instanceId x.executionId event.eventId fireAtMs)
  | _ => none

/-- What holds of the engine throughout a turn. -/
structure Sound (baseline : List Event) (e : ReplayEngine) : Prop where
  baseline : e.baselineHistory = baseline
  wellFormed : WellFormed e.finalHistory
  running : Execution.ended e.finalHistory = false
  below : ∀ event ∈ e.finalHistory, event.eventId < e.nextEventId
  work : e.historyDelta.filterMap (scheduledWork x) = e.pendingActions.filterMap x.workerItem
  timers : e.historyDelta.filterMap (scheduledTimer x) = e.pendingActions.filterMap x.timerItem

end

namespace Sound

variable {x : Execution} {baseline : List Event} {e : ReplayEngine} {sourceEventId : Option ℕ}

/-- An event with the next id, and an action with the same content if it schedules something. -/
theorem concat (h : Sound x baseline e) {actions : List Action}
    (hid : event.eventId = e.nextEventId)
    (hrunning : (event.kind.isTerminated || event.kind.isContinuedAsNew) = false)
    (hanswer : ∀ schedule, answers event = some schedule →
    ScheduledIn e.finalHistory schedule.1 schedule.2)
    (hnote : ∀ said, note event = some said → said ∉ e.finalHistory.filterMap note)
    (hwork : [event].filterMap (scheduledWork x) = actions.filterMap x.workerItem)
    (htimer : [event].filterMap (scheduledTimer x) = actions.filterMap x.timerItem) :
    Sound x baseline { e with
      nextEventId := e.nextEventId + 1
      historyDelta := e.historyDelta ++ [event]
      pendingActions := e.pendingActions ++ actions } := by
  have hfinal : e.baselineHistory ++ (e.historyDelta ++ [event]) = e.finalHistory ++ [event] :=
    (List.append_assoc _ _ _).symm
  refine ⟨h.baseline, ?_, ?_, ?_, ?_, ?_⟩
  · rw [ReplayEngine.finalHistory, hfinal]
    exact h.wellFormed.concat (fun event' hmem => hid ▸ h.below event' hmem) hanswer hnote
  · rw [ReplayEngine.finalHistory, hfinal, Execution.ended, List.any_append, ← Execution.ended,
      h.running]
    simpa using hrunning
  · rw [ReplayEngine.finalHistory, hfinal]
    intro event' hmem
    rcases List.mem_append.mp hmem with hold | hlast
    · exact (h.below event' hold).trans (Nat.lt_succ_self _)
    · rw [List.mem_singleton.mp hlast, hid]
      exact Nat.lt_succ_self _
  · rw [List.filterMap_append, List.filterMap_append, h.work, hwork]
  · rw [List.filterMap_append, List.filterMap_append, h.timers, htimer]

theorem push (h : Sound x baseline e)
    (hrunning : (kind.isTerminated || kind.isContinuedAsNew) = false)
    (hschedule : schedules ⟨e.nextEventId, sourceEventId, kind⟩ = none)
    (hanswer : ∀ schedule, answers ⟨e.nextEventId, sourceEventId, kind⟩ = some schedule →
      ScheduledIn e.finalHistory schedule.1 schedule.2)
    (hnote : ∀ said, note ⟨e.nextEventId, sourceEventId, kind⟩ = some said →
      said ∉ e.finalHistory.filterMap note) :
    Sound x baseline (e.push sourceEventId kind) := by
  have hwork : [(⟨e.nextEventId, sourceEventId, kind⟩ : Event)].filterMap (scheduledWork x)
      = ([] : List Action).filterMap x.workerItem := by cases kind <;> first | rfl | cases hschedule
  have htimer : [(⟨e.nextEventId, sourceEventId, kind⟩ : Event)].filterMap (scheduledTimer x)
      = ([] : List Action).filterMap x.timerItem := by cases kind <;> first | rfl | cases hschedule
  have hconcat := h.concat rfl hrunning hanswer hnote hwork htimer
  rw [List.append_nil] at hconcat
  exact hconcat

theorem abort (h : Sound x baseline e) (error : Option ErrorDetails) :
    Sound x baseline { e with abortError := error } :=
  ⟨h.baseline, h.wellFormed, h.running, h.below, h.work, h.timers⟩

/-! #### Completions -/

theorem scheduleKind_activity (h : e.scheduleKind id = some "activity") :
    ScheduledIn e.finalHistory .activity id := by
  obtain ⟨event, hmem, hfound⟩ := List.exists_of_findSome?_eq_some h
  obtain ⟨eventId, sourceEventId, kind⟩ := event
  refine ⟨_, hmem, ?_⟩
  cases kind <;> simp_all [schedules]

theorem scheduleKind_timer (h : e.scheduleKind id = some "timer") :
    ScheduledIn e.finalHistory .timer id := by
  obtain ⟨event, hmem, hfound⟩ := List.exists_of_findSome?_eq_some h
  obtain ⟨eventId, sourceEventId, kind⟩ := event
  refine ⟨_, hmem, ?_⟩
  cases kind <;> simp_all [schedules]

theorem scheduleKind_of_unmatched {got subject : String} (h : e.unmatched id got subject = none) :
    e.scheduleKind id = some got := by
  unfold ReplayEngine.unmatched at h
  split at h
  · rename_i expected hkind
    split_ifs at h with heq
    rw [hkind, heq]
  · cases h

/-- A result that has neither come before nor in this turn is new. -/
theorem notMem_notes {said : Note} {p q r : EventKind → Bool}
    (hiff : ∀ event, note event = some (said, id) ↔ event.sourceEventId = some id
      ∧ r event.kind = true)
    (hp : ∀ kind, r kind = true → p kind = true) (hq : ∀ kind, r kind = true → q kind = true)
    (hbefore : (e.baselineHistory.any fun event => event.sourceEventId = some id
      ∧ p event.kind) = false)
    (hnow : (e.historyDelta.any fun event => event.sourceEventId = some id
      ∧ q event.kind) = false) :
    (said, id) ∉ e.finalHistory.filterMap note := by
  intro hmem
  obtain ⟨event, hevent, hsaid⟩ := List.mem_filterMap.mp hmem
  obtain ⟨hsource, hkind⟩ := (hiff event).mp hsaid
  rcases List.mem_append.mp hevent with hold | hnew
  · have := List.any_eq_false.mp hbefore event hold
    simp [hsource, hp _ hkind] at this
  · have := List.any_eq_false.mp hnow event hnew
    simp [hsource, hq _ hkind] at this

theorem prepCompletion (h : Sound x baseline e) (msg : WorkItem) :
    Sound x baseline (e.prepCompletion msg) := by
  unfold ReplayEngine.prepCompletion
  split_ifs with hskip
  · exact h
  simp only [Bool.or_eq_true, not_or, Bool.not_eq_true] at hskip
  obtain ⟨⟨-, hbefore⟩, hnow⟩ := hskip
  cases herror : e.completionError msg with
  | some error => exact h.abort _
  | none =>
    dsimp only
    cases msg with
    | activityCompleted instanceId executionId id result =>
      have hschedule := scheduleKind_activity (scheduleKind_of_unmatched herror)
      refine (h.abort _).push rfl rfl (fun schedule hs => ?_) (fun said hs => ?_)
      · obtain rfl := Option.some_inj.mp hs
        exact hschedule
      · obtain rfl := Option.some_inj.mp hs
        exact notMem_notes (fun event => note_completed) (fun kind hk => hk)
          (fun kind hk => by cases kind <;> first | rfl | cases hk) hbefore hnow
    | activityFailed instanceId executionId id details =>
      have hschedule := scheduleKind_activity (scheduleKind_of_unmatched herror)
      refine (h.abort _).push rfl rfl (fun schedule hs => ?_) (fun said hs => nomatch hs)
      obtain rfl := Option.some_inj.mp hs
      exact hschedule
    | timerFired instanceId executionId id fireAtMs =>
      have hschedule := scheduleKind_timer (scheduleKind_of_unmatched herror)
      refine (h.abort _).push rfl rfl (fun schedule hs => ?_) (fun said hs => ?_)
      · obtain rfl := Option.some_inj.mp hs
        exact hschedule
      · obtain rfl := Option.some_inj.mp hs
        exact notMem_notes (fun event => note_fired) (fun kind hk => hk)
          (fun kind hk => hk) hbefore hnow
    | externalRaised instanceId name data =>
      exact (h.abort _).push rfl rfl (fun schedule hs => nomatch hs) (fun said hs => nomatch hs)
    | queueMessage instanceId name data =>
      exact (h.abort _).push rfl rfl (fun schedule hs => nomatch hs) (fun said hs => nomatch hs)
    | cancelInstance instanceId reason =>
      dsimp only [ReplayEngine.completionEvent]
      split_ifs
      · exact h.abort _
      · exact (h.abort _).push rfl rfl (fun schedule hs => nomatch hs) (fun said hs => nomatch hs)
    | startOrchestration instanceId orchestration input version parentInstance executionId =>
      exact h.abort _
    | activityExecute instanceId executionId id name input sessionId tag => exact h.abort _
    | subOrchCompleted parentInstance parentExecutionId parentId result => exact h.abort _
    | subOrchFailed parentInstance parentExecutionId parentId details => exact h.abort _
    | continueAsNew instanceId orchestration input version => exact h.abort _

theorem prepCompletions (h : Sound x baseline e) (messages : List WorkItem) :
    Sound x baseline (e.prepCompletions messages) := by
  unfold ReplayEngine.prepCompletions
  induction messages generalizing e with
  | nil => exact h
  | cons msg messages ih => exact ih (h.prepCompletion msg)

/-! #### New actions -/

theorem convertEmittedAction (h : Sound x baseline e) (clock : ℕ → ℕ) (ctx : CtxInner)
    (emitted : ℕ × Request) :
    Sound x baseline (Replay.convertEmittedAction clock (ctx, e) emitted).2 := by
  obtain ⟨token, request⟩ := emitted
  cases request with
  | callActivity name input sessionId tag =>
    exact h.concat rfl rfl (fun schedule hs => nomatch hs) (fun said hs => nomatch hs) rfl rfl
  | createTimer delayMs =>
    exact h.concat rfl rfl (fun schedule hs => nomatch hs) (fun said hs => nomatch hs) rfl rfl
  | dequeueEvent name =>
    exact h.concat rfl rfl (fun schedule hs => nomatch hs) (fun said hs => nomatch hs) rfl rfl
  | continueAsNew input version =>
    -- The id is taken without an event.
    have hfinal : (Replay.convertEmittedAction clock (ctx, e) (token,
      .continueAsNew input version)).2.finalHistory
        = e.finalHistory := congrArg (e.baselineHistory ++ ·) (List.append_nil _)
    refine ⟨h.baseline, hfinal ▸ h.wellFormed, hfinal ▸ h.running, fun event hmem => ?_, ?_, ?_⟩
    · rw [hfinal] at hmem
      exact (h.below event hmem).trans (Nat.lt_succ_self _)
    · have hnone : [Action.continueAsNew input version].filterMap x.workerItem = [] := rfl
      simpa [Replay.convertEmittedAction, Request.action, Action.event, hnone] using h.work
    · have hnone : [Action.continueAsNew input version].filterMap x.timerItem = [] := rfl
      simpa [Replay.convertEmittedAction, Request.action, Action.event, hnone] using h.timers

theorem convertEmittedActions (h : Sound x baseline e) (clock : ℕ → ℕ)
    (emitted : List (ℕ × Request)) (ctx : CtxInner) :
      Sound x baseline (Replay.convertEmittedActions clock emitted (ctx, e)).2 := by
  unfold Replay.convertEmittedActions
  induction emitted generalizing ctx e with
  | nil => exact h
  | cons action emitted ih => exact ih (h.convertEmittedAction clock ctx action) _

theorem convert (h : Sound x baseline e) (o : Orchestration) (clock : ℕ → ℕ)
    (ev : Evaluation o.State) :
    Sound x baseline (o.convert clock (ev, e)).2 := h.convertEmittedActions clock _ _

/-- The engine that an evaluation leaves, also when it fails. -/
def engineOf {σ : Type} :
    Except (ErrorDetails × ReplayEngine) (Evaluation σ × ReplayEngine) → ReplayEngine
  | .error failed => failed.2
  | .ok state => state.2

theorem runQuiescenceLoop (h : Sound x baseline e) (o : Orchestration) (clock : ℕ → ℕ) (n : ℕ)
    (ev : Evaluation o.State) :
      Sound x baseline (engineOf (o.runQuiescenceLoop clock n (ev, e))) := by
  induction n generalizing ev e with
  | zero => exact h
  | succ n ih =>
    have hnext := h.convert o clock (o.pollOrchestrationFuture ev)
    unfold Orchestration.runQuiescenceLoop
    dsimp only
    split_ifs
    · exact h
    · exact hnext
    · exact hnext
    · exact ih hnext _

/-! #### The end of a turn -/

theorem notMem_alreadyCancelled {said : Note} {reason : EventKind → Option String}
    (hiff : ∀ event, note event = some (said, id) ↔ event.sourceEventId = some id
      ∧ (reason event.kind).isSome = true)
    (h : id ∉ e.alreadyCancelled reason) : (said, id) ∉ e.finalHistory.filterMap note := by
  intro hmem
  obtain ⟨event, hevent, hsaid⟩ := List.mem_filterMap.mp hmem
  obtain ⟨hsource, hkind⟩ := (hiff event).mp hsaid
  exact h (List.mem_filterMap.mpr ⟨event, hevent, by rw [if_pos hkind, hsource]⟩)

theorem cancelActivity (h : Sound x baseline e) (hid : ScheduledIn e.finalHistory .activity id) :
    Sound x baseline (e.cancelActivity id) := by
  unfold ReplayEngine.cancelActivity
  split_ifs with hold
  · exact h
  have hpush : Sound x baseline (e.push (some id) (.activityCancelRequested "dropped_future")) := by
    refine h.push rfl rfl (fun schedule hs => ?_) fun said hs => ?_
    · obtain rfl := Option.some_inj.mp hs
      exact hid
    · obtain rfl := Option.some_inj.mp hs
      exact notMem_alreadyCancelled (fun event => note_activityCancelled) hold
  exact ⟨hpush.baseline, hpush.wellFormed, hpush.running, hpush.below, hpush.work, hpush.timers⟩

theorem cancelQueueSubscription (h : Sound x baseline e)
    (hid : ScheduledIn e.finalHistory .queueDequeue id) :
    Sound x baseline (e.cancelQueueSubscription id) := by
  unfold ReplayEngine.cancelQueueSubscription
  split_ifs with hold
  · exact h
  refine h.push rfl rfl (fun schedule hs => ?_) fun said hs => ?_
  · obtain rfl := Option.some_inj.mp hs
    exact hid
  · obtain rfl := Option.some_inj.mp hs
    exact notMem_alreadyCancelled (fun event => note_subscriptionCancelled) hold

theorem prefix_cancelActivity (e : ReplayEngine) (id : ℕ) :
    e.finalHistory <+: (e.cancelActivity id).finalHistory := by
  unfold ReplayEngine.cancelActivity
  split_ifs
  · exact List.prefix_rfl
  · exact ⟨_, List.append_assoc _ _ _⟩

theorem prefix_cancelQueueSubscription (e : ReplayEngine) (id : ℕ) :
    e.finalHistory <+: (e.cancelQueueSubscription id).finalHistory := by
  unfold ReplayEngine.cancelQueueSubscription
  split_ifs
  · exact List.prefix_rfl
  · exact ⟨_, List.append_assoc _ _ _⟩

/-- Some schedules are cancelled one after another. -/
theorem foldl {f : ReplayEngine → ℕ → ReplayEngine} {schedule : ScheduleKind}
    (hf : ∀ e id, Sound x baseline e → ScheduledIn e.finalHistory schedule id →
      Sound x baseline (f e id))
    (hgrows : ∀ e id, e.finalHistory <+: (f e id).finalHistory)
    (h : Sound x baseline e) {ids : List ℕ}
    (hids : ∀ id ∈ ids, ScheduledIn e.finalHistory schedule id) :
    Sound x baseline (ids.foldl f e) ∧ e.finalHistory <+: (ids.foldl f e).finalHistory := by
  induction ids generalizing e with
  | nil => exact ⟨h, List.prefix_rfl⟩
  | cons id ids ih =>
    obtain ⟨hsound, hprefix⟩ := ih (hf e id h (hids id List.mem_cons_self)) fun id' hid' =>
      (hids id' (List.mem_cons_of_mem _ hid')).mono (hgrows e id)
    exact ⟨hsound, (hgrows e id).trans hprefix⟩

theorem collectCancelledFromContext (h : Sound x baseline e) {ctx : CtxInner} {e' : ReplayEngine}
    (hbound : Bound e.finalHistory [] ctx) (hok : e.collectCancelledFromContext ctx = .ok e') :
    Sound x baseline e' := by
  unfold ReplayEngine.collectCancelledFromContext at hok
  split_ifs at hok
  obtain rfl := Except.ok.inj hok
  obtain ⟨hactivities, hprefix⟩ :=
    foldl (fun _ _ h hid => h.cancelActivity hid) prefix_cancelActivity h
    fun id hid => hbound.cancelledIds hid
  exact (foldl (fun _ _ h hid =>
    h.cancelQueueSubscription hid) prefix_cancelQueueSubscription hactivities
    fun id hid => (hbound.cancelledIds hid).mono hprefix).1

theorem finalizeTurn (h : Sound x baseline e) {ctx : CtxInner}
    (hbound : Bound e.finalHistory [] ctx) (outputOpt : Option (Except String String)) :
      Sound x baseline (e.finalizeTurn ctx outputOpt).2 := by
  unfold ReplayEngine.finalizeTurn
  split
  · exact h
  split
  · exact h
  split
  · exact h
  · rename_i e' hok
    have hcollected := h.collectCancelledFromContext hbound hok
    split <;> exact hcollected

theorem executeOrchestration (h : Sound x baseline e) (o : Orchestration) (clock : ℕ → ℕ)
    (state : o.State) : Sound x baseline (o.executeOrchestration clock state e).2 := by
  unfold Orchestration.executeOrchestration
  split
  · exact h
  split_ifs
  · exact h
  split
  · exact h
  split_ifs
  · exact h
  split
  · exact h
  rename_i ev hread
  have hfinish : Sound x baseline (engineOf (o.finish clock e ev)) :=
    (h.convert o clock _).runQuiescenceLoop o clock 100 _
  have hbound :=
    (((Bound.init e.finalHistory state).readHistory o (List.Subset.refl _) hread).settle
      o).cancelDropped o
  cases hresult : o.finish clock e ev with
  | error failed =>
    rw [hresult] at hfinish
    exact hfinish
  | ok done =>
    rw [hresult] at hfinish
    exact Sound.finalizeTurn hfinish ((hbound.convert o clock).runQuiescenceLoop o clock
      100 hresult).rest _

theorem new (hw : WellFormed baseline) (hr : Execution.ended baseline = false)
    (executionId len : ℕ) : Sound x baseline (.new executionId baseline len) := by
  have hfinal : (ReplayEngine.new executionId baseline len).finalHistory = baseline :=
    List.append_nil _
  refine ⟨rfl, hfinal.symm ▸ hw, hfinal.symm ▸ hr, fun event hmem => ?_, rfl, rfl⟩
  rw [hfinal] at hmem
  -- The last event has the greatest id.
  obtain ⟨events, last, rfl⟩ :=
    List.eq_nil_or_concat' baseline |>.resolve_left (List.ne_nil_of_mem hmem)
  have hnext : (ReplayEngine.new executionId (events ++ [last]) len).nextEventId =
      last.eventId + 1 := by
    simp [ReplayEngine.new]
  rw [hnext]
  rcases List.mem_append.mp hmem with hold | hlast
  · exact ((List.pairwise_append.mp hw.increasing).2.2 event hold last
      (List.mem_singleton_self _)).trans
      (Nat.lt_succ_self _)
  · rw [List.mem_singleton.mp hlast]
    exact Nat.lt_succ_self _

/-- What a turn of the engine leaves. -/
theorem runTurn (hw : WellFormed baseline) (hr : Execution.ended baseline = false) (clock : ℕ → ℕ)
    (state : x.orchestration.State) (executionId len : ℕ) (messages : List WorkItem) :
    Sound x baseline (x.orchestration.runTurn clock state executionId baseline len messages).2 :=
  ((Sound.new hw hr executionId len).prepCompletions messages).executeOrchestration _ clock state

end Sound

/-! ### The end of an execution -/

/-- No activity is left open: each has completed, failed or been cancelled. -/
def NoneOpen (history : List Event) : Prop :=
  ∀ id ∈ scheduledActivities history, id ∈ endedActivities history
    ∨ id ∈ cancelledActivities history

namespace History

theorem ended_append (events events' : List Event) :
    Execution.ended (events ++ events') = (Execution.ended events || Execution.ended events') :=
      List.any_append

theorem nodup_eventIds (h : WellFormed history) (p : Event → Bool) :
    ((history.filter p).map Event.eventId).Nodup :=
  List.pairwise_map.mpr ((h.increasing.filter p).imp fun hlt => hlt.ne)

theorem scheduledIn_activity (h : id ∈ scheduledActivities history) :
    ScheduledIn history .activity id := by
  obtain ⟨event, hmem, rfl⟩ := List.mem_map.mp h
  obtain ⟨hevent, hkind⟩ := List.mem_filter.mp hmem
  refine ⟨event, hevent, rfl, ?_⟩
  obtain ⟨eventId, sourceEventId, kind⟩ := event
  cases kind <;> first | rfl | cases hkind

theorem scheduledIn_subscription (h : id ∈ (subscriptions history).map Prod.fst) :
    ScheduledIn history .queueDequeue id := by
  obtain ⟨sub, hsub, rfl⟩ := List.mem_map.mp h
  obtain ⟨event, hevent, hfound⟩ := List.mem_filterMap.mp hsub
  obtain ⟨eventId, sourceEventId, kind⟩ := event
  cases kind <;> cases hfound
  exact ⟨_, hevent, rfl, rfl⟩

theorem subscriptions_eq (history : List Event) : (subscriptions history).map Prod.fst
    = (history.filter fun event => event.kind.isQueueSubscribed).map Event.eventId := by
  induction history with
  | nil => rfl
  | cons event history ih =>
    obtain ⟨eventId, sourceEventId, kind⟩ := event
    cases kind <;> first | exact ih | exact congrArg _ ih

theorem note_mem_cancelledActivities (h : (Note.activityCancelled, id) ∈ history.filterMap note) :
    id ∈ cancelledActivities history := by
  obtain ⟨event, hmem, hsaid⟩ := List.mem_filterMap.mp h
  obtain ⟨hsource, hkind⟩ := note_activityCancelled.mp hsaid
  exact List.mem_filterMap.mpr ⟨event, List.mem_filter.mpr ⟨hmem, hkind⟩, hsource⟩

theorem note_mem_cancelledSubscriptions
    (h : (Note.subscriptionCancelled, id) ∈ history.filterMap note) :
    id ∈ cancelledSubscriptions history := by
  obtain ⟨event, hmem, hsaid⟩ := List.mem_filterMap.mp h
  obtain ⟨hsource, hkind⟩ := note_subscriptionCancelled.mp hsaid
  exact List.mem_filterMap.mpr ⟨event, List.mem_filter.mpr ⟨hmem, hkind⟩, hsource⟩

end History

theorem wellFormed_cancelOutstanding (h : WellFormed history) (reason : String) :
    WellFormed (appendEach history (.queueSubscriptionCancelled reason)
      (outstandingSubscriptions history)) := by
  refine h.appendEach .subscriptionCancelled .queueDequeue (fun _ _ => rfl)
    (fun _ _ => rfl) ?_ (fun id hid => ?_)
    fun id hid hmem => ?_
  · exact ((subscriptions_eq history) ▸ nodup_eventIds h _).filter _
  · exact scheduledIn_subscription (List.mem_filter.mp hid).1
  · exact (of_decide_eq_true (List.mem_filter.mp hid).2).2 (note_mem_cancelledSubscriptions hmem)

theorem wellFormed_cancelInflight (h : WellFormed history) (reason : String) :
    WellFormed (cancelInflight history reason) := by
  refine h.appendEach .activityCancelled .activity (fun _ _ => rfl)
    (fun _ _ => rfl) ?_ (fun id hid => ?_)
    fun id hid hmem => ?_
  · exact (nodup_eventIds h _).filter _
  · exact scheduledIn_activity (List.mem_filter.mp hid).1
  · exact (of_decide_eq_true (List.mem_filter.mp hid).2).2 (note_mem_cancelledActivities hmem)

theorem TurnResult.ending_eq_some {result : TurnResult} {reason : String}
    (h : result.ending = some (kind, reason)) :
    (kind.isTerminated || kind.isContinuedAsNew) = true
      ∧ ∀ eventId, answers ⟨eventId, none, kind⟩ = none ∧ note ⟨eventId, none, kind⟩ = none := by
  cases result <;> cases h <;> exact ⟨rfl, fun eventId => ⟨rfl, rfl⟩⟩

theorem wellFormed_endExecution (h : WellFormed history) {result : TurnResult} {reason : String}
    (hending : result.ending = some (kind, reason)) : WellFormed (endExecution history kind) := by
  obtain ⟨-, hkind⟩ := TurnResult.ending_eq_some hending
  refine (wellFormed_cancelOutstanding h _).append (fun schedule hschedule => ?_)
    fun said hsaid => ?_
  · rw [(hkind _).1] at hschedule
    cases hschedule
  · rw [(hkind _).2] at hsaid
    cases hsaid

theorem endExecution_eq (history : List Event) (kind : EventKind) :
    ∃ added eventId, endExecution history kind = (history ++ added) ++ [⟨eventId, none, kind⟩]
      ∧ Execution.ended added = false := by
  obtain ⟨added, heq, hkind, -⟩ :=
    appendEach_eq history (.queueSubscriptionCancelled "orchestration_terminal")
    (outstandingSubscriptions history)
  refine ⟨added, nextEventId (history ++ added), ?_, List.any_eq_false.mpr fun event hmem => ?_⟩
  · rw [endExecution, heq]
    rfl
  · rw [hkind event hmem]
    exact Bool.false_ne_true

theorem ended_endExecution (history : List Event) {result : TurnResult} {reason : String}
    (hending : result.ending = some (kind, reason)) :
      Execution.ended (endExecution history kind) = true := by
  obtain ⟨added, eventId, heq, -⟩ := endExecution_eq history kind
  have hlast : Execution.ended [⟨eventId, none, kind⟩] = true := by
    simpa [Execution.ended] using (TurnResult.ending_eq_some hending).1
  rw [heq, ended_append, hlast, Bool.or_true]

/-- What is in flight at the end of an execution is cancelled, and nothing else is added. -/
theorem cancelInflight_eq (closed : List Event) (reason : String) :
    ∃ cancels, cancelInflight closed reason = closed ++ cancels
      ∧ (∀ event ∈ cancels, event.kind.activityCancelReason.isSome = true)
      ∧ NoneOpen (closed ++ cancels) := by
  obtain ⟨cancels, heq, hkinds, hsources⟩ := appendEach_eq closed (.activityCancelRequested reason)
    (computeInflightActivities closed)
  have hcancels : ∀ event ∈ cancels, event.kind.activityCancelReason.isSome = true :=
      fun event hmem => by
    rw [hkinds event hmem]
    rfl
  refine ⟨cancels, heq, hcancels, fun id hid => ?_⟩
  have hold : id ∈ scheduledActivities closed := by
    rw [scheduledActivities, List.filter_append, List.map_append, List.mem_append] at hid
    refine hid.resolve_right fun hmem => ?_
    obtain ⟨event, hevent, -⟩ := List.mem_map.mp hmem
    obtain ⟨hmem', hscheduled⟩ := List.mem_filter.mp hevent
    rw [hkinds event hmem'] at hscheduled
    cases hscheduled
  rw [endedActivities, cancelledActivities, List.filter_append, List.filter_append,
    List.filterMap_append, List.filterMap_append, List.mem_append, List.mem_append]
  by_cases hdone : id ∈ endedActivities closed
  · exact .inl (.inl hdone)
  by_cases hcancelled : id ∈ cancelledActivities closed
  · exact .inr (.inl hcancelled)
  have hinflight : id ∈ computeInflightActivities closed :=
    List.mem_filter.mpr ⟨hold, decide_eq_true ⟨hdone, hcancelled⟩⟩
  obtain ⟨event, hmem, hsource⟩ :=
    List.mem_map.mp (hsources ▸ List.mem_map_of_mem (f := some) hinflight)
  exact .inr (.inr (List.mem_filterMap.mpr ⟨event,
    List.mem_filter.mpr ⟨hmem, hcancels event hmem⟩, hsource⟩))

theorem ended_cancelInflight {closed : List Event} (h : Execution.ended closed = true)
    (reason : String) : Execution.ended (cancelInflight closed reason) = true := by
  obtain ⟨cancels, heq, -⟩ := cancelInflight_eq closed reason
  rw [heq, ended_append, h, Bool.true_or]

/-! ### Turns and runs -/

namespace Execution

variable {x : Execution}

/-- What a turn leaves of a history that is well formed and has not ended. -/
structure Commits (x : Execution) (baseline : List Event) (commit : Commit) : Prop where
  grows : baseline <+: commit.history
  wellFormed : WellFormed commit.history
  work : ended commit.history = false →
    baseline.filterMap (scheduledWork x) ++ commit.workerItems =
      commit.history.filterMap (scheduledWork x)
  timers : ended commit.history = false →
    baseline.filterMap (scheduledTimer x) ++ commit.orchestratorItems =
      commit.history.filterMap (scheduledTimer x)

theorem commits_commitTurn {baseline : List Event} (hw : WellFormed baseline)
    (hr : ended baseline = false) (persistedHistoryLen : ℕ) (turn : Turn) :
      Commits x baseline (x.commitTurn baseline persistedHistoryLen turn) := by
  have hsound :=
    Sound.runTurn hw hr turn.clock (x.orchestration.start x.instanceId x.input) x.executionId
    persistedHistoryLen turn.messages
  unfold commitTurn
  generalize x.orchestration.runTurn turn.clock (x.orchestration.start x.instanceId x.input)
    x.executionId baseline
    persistedHistoryLen turn.messages = run at hsound ⊢
  obtain ⟨result, engine⟩ := run
  dsimp only at hsound ⊢
  have hfinal : engine.finalHistory = baseline ++ engine.historyDelta := by
    rw [ReplayEngine.finalHistory, hsound.baseline]
  cases hending : result.ending with
  | none =>
    dsimp only
    refine ⟨hfinal ▸ List.prefix_append _ _, hsound.wellFormed, fun _ => ?_, fun _ => ?_⟩
    · rw [hfinal, List.filterMap_append, hsound.work]
    · rw [hfinal, List.filterMap_append, hsound.timers]
  | some ending =>
    obtain ⟨kind, reason⟩ := ending
    dsimp only
    have hended := ended_cancelInflight (ended_endExecution engine.finalHistory hending) reason
    refine ⟨?_,
      wellFormed_cancelInflight (wellFormed_endExecution hsound.wellFormed hending) reason,
      fun hopen => ?_, fun hopen => ?_⟩
    · obtain ⟨added, eventId, heq, -⟩ := endExecution_eq engine.finalHistory kind
      have hprefix : baseline <+: endExecution engine.finalHistory kind := by
        rw [heq, hfinal, List.append_assoc, List.append_assoc]
        exact List.prefix_append _ _
      exact hprefix.trans (prefix_appendEach _ _ _)
    · exact absurd (hended.symm.trans hopen) (by decide)
    · exact absurd (hended.symm.trans hopen) (by decide)

theorem wellFormed_started : WellFormed [x.started] where
  increasing := List.pairwise_singleton _ _
  answered := fun event hmem schedule hschedule => by
    rw [List.mem_singleton.mp hmem] at hschedule
    cases hschedule
  once := List.nodup_nil

/-- What holds of the history and the items after some turns. -/
structure Progress (x : Execution) (state : List Event × List WorkItem × List WorkItem) : Prop where
  wellFormed : WellFormed state.1
  work : ended state.1 = false → state.2.1 = state.1.filterMap (scheduledWork x)
  timers : ended state.1 = false → state.2.2 = state.1.filterMap (scheduledTimer x)

theorem Progress.after {state : List Event × List WorkItem × List WorkItem}
    (h : Progress x state) (turn : Turn) :
    Progress x (x.after state turn) ∧ state.1 <+: (x.after state turn).1 := by
  obtain ⟨history, work, timers⟩ := state
  dsimp only [Execution.after, step]
  cases hended : ended history with
  | true =>
    rw [if_pos rfl]
    refine ⟨⟨h.wellFormed, fun hopen => ?_, fun hopen => ?_⟩, List.prefix_rfl⟩
    · exact absurd (hended.symm.trans hopen) (by decide)
    · exact absurd (hended.symm.trans hopen) (by decide)
  | false =>
    rw [if_neg Bool.false_ne_true]
    cases history with
    | nil =>
      rw [if_pos (List.isEmpty_nil : ([] : List Event).isEmpty = true)]
      have hcommit := commits_commitTurn (x := x) (wellFormed_started (x := x)) rfl 0 turn
      obtain rfl : work = [] := h.work hended
      obtain rfl : timers = [] := h.timers hended
      exact ⟨⟨hcommit.wellFormed, hcommit.work, hcommit.timers⟩, List.nil_prefix⟩
    | cons event events =>
      rw [if_neg (by exact Bool.false_ne_true)]
      have hcommit := commits_commitTurn (x := x) h.wellFormed hended (event :: events).length turn
      obtain rfl : work = (event :: events).filterMap (scheduledWork x) := h.work hended
      obtain rfl : timers = (event :: events).filterMap (scheduledTimer x) := h.timers hended
      exact ⟨⟨hcommit.wellFormed, hcommit.work, hcommit.timers⟩, hcommit.grows⟩

theorem Progress.foldl {state : List Event × List WorkItem × List WorkItem} (h : Progress x state)
    (turns : List Turn) : Progress x (turns.foldl x.after state)
      ∧ state.1 <+: (turns.foldl x.after state).1 := by
  induction turns generalizing state with
  | nil => exact ⟨h, List.prefix_rfl⟩
  | cons turn turns ih =>
    obtain ⟨hnext, hprefix⟩ := h.after turn
    exact ⟨(ih hnext).1, hprefix.trans (ih hnext).2⟩

theorem progress_init (x : Execution) : Progress x ([], [], []) where
  wellFormed := ⟨List.Pairwise.nil, fun _ hmem => absurd hmem List.not_mem_nil, List.nodup_nil⟩
  work := fun _ => rfl
  timers := fun _ => rfl

theorem progress_run (x : Execution) (turns : List Turn) : Progress x (x.run turns) :=
  ((progress_init x).foldl turns).1

/-- **Histories are well formed and only grow.** Whatever the code of the orchestration, the clocks
and the messages of the turns: the ids increase, every result and every cancellation is of something
of its kind scheduled before, nothing is completed, fired or cancelled twice, and later turns only
add to the history. -/
theorem wellFormed_run (x : Execution) (turns later : List Turn) :
    WellFormed (x.run turns).1 ∧ (x.run turns).1 <+: (x.run (turns ++ later)).1 := by
  refine ⟨(progress_run x turns).wellFormed, ?_⟩
  have happend : x.run (turns ++ later) = later.foldl x.after (x.run turns) := List.foldl_append
  rw [happend]
  exact ((progress_run x turns).foldl later).2

/-- **Every request is handed on once.** While an execution goes on, its turns have handed to the
workers the activities of its history and to the timers the timers of its history, each once and in
the order of the history. -/
theorem handed_run (x : Execution) (turns : List Turn) (h : ended (x.run turns).1 = false) :
    (x.run turns).2.1 = (x.run turns).1.filterMap (scheduledWork x)
      ∧ (x.run turns).2.2 = (x.run turns).1.filterMap (scheduledTimer x) :=
  ⟨(progress_run x turns).work h, (progress_run x turns).timers h⟩

/-! An orchestration that calls one activity and awaits it. -/

/-- Calls one activity and ends. -/
def callOnce : Orchestration where
  State := Unit
  start := fun _ _ => ()
  body := fun _ => .request (.callActivity "a" "x" none none) fun token => .await [token] fun _ _ =>
    .finish (.ok "done")
  guarded := fun _ _ => trivial

/-- The one execution of it. -/
def callOnceExecution : Execution := ⟨callOnce, "i", 1, "call-once", "1", "in"⟩

theorem handed_run_example : ended (callOnceExecution.run [⟨fun _ => 0, []⟩]).1 = false
    ∧ (callOnceExecution.run [⟨fun _ => 0, []⟩]).2.1
      = (callOnceExecution.run [⟨fun _ => 0, []⟩]).1.filterMap (scheduledWork callOnceExecution)
    ∧ (callOnceExecution.run [⟨fun _ => 0, []⟩]).2.2
      = (callOnceExecution.run [⟨fun _ => 0, []⟩]).1.filterMap (scheduledTimer callOnceExecution) :=
  ⟨by decide, handed_run callOnceExecution [⟨fun _ => 0, []⟩] (by decide)⟩

end Execution

end Sporos.Vendor.Replay

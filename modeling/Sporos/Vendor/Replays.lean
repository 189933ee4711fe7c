import Sporos.Vendor.Plain
import Sporos.Vendor.TurnRuns

/-! # Replay

A turn does not continue the code where the last one left it: it starts the code again and reads the
history. For code that takes nothing from a queue this makes no difference. What a turn adds to the
history, its requests and its cancellations, is read by the next one as the same requests and
cancellations of the code, so that a turn to which nothing has arrived commits nothing. Of the
workflows of the service, that of a candidate alone waits on a queue. -/

namespace Sporos.Vendor.Replay

open History

/-- An event that cancels nothing. -/
def Uncancelled (event : Event) : Prop :=
  event.kind.activityCancelReason = none ∧ event.kind.queueCancelReason = none

theorem answers_of_cancelled {event : Event} {reason : String} {id : ℕ}
    (hkind : event.kind.activityCancelReason = some reason)
    (hsource : event.sourceEventId = some id) : answers event = some (.activity, id) := by
  obtain ⟨eventId, sourceEventId, kind⟩ := event
  obtain rfl : sourceEventId = some id := hsource
  cases kind <;> first | rfl | cases hkind

theorem isActivityScheduled_of_schedules {event : Event} (h : schedules event = some .activity) :
    event.kind.isActivityScheduled = true := by
  obtain ⟨eventId, sourceEventId, kind⟩ := event
  cases kind <;> first | rfl | cases h

/-! ### Reading -/

namespace Orchestration

variable {o : Orchestration} {ev ev' : Evaluation o.State} {event : Event}
  {events more : List Event}

theorem readHistory_cons : o.readHistory (event :: events) ev
    = if (o.settle ev).outputOpt.isSome then .ok (o.settle ev)
      else (o.settle ev).applyHistoryEvent event >>= fun ev => o.readHistory events ev := rfl

theorem settle_of_mustPoll (h : ev.mustPoll = false) : o.settle ev = ev := by
  unfold settle
  rw [h]
  rfl

theorem mustPoll_settle (h : (o.settle ev).outputOpt = none) : (o.settle ev).mustPoll = false := by
  unfold settle at h ⊢
  split_ifs at h ⊢ with hpoll
  · rfl
  · cases hmust : ev.mustPoll with
    | false => rfl
    | true =>
      rw [hmust, h] at hpoll
      exact absurd rfl hpoll

theorem readHistory_append (hok : o.readHistory events ev = .ok ev') (hout : ev'.outputOpt = none) :
    o.readHistory (events ++ more) ev = o.readHistory more ev' := by
  induction events generalizing ev with
  | nil =>
    cases hok
    rfl
  | cons event events ih =>
    rw [List.cons_append, readHistory_cons]
    rw [readHistory_cons] at hok
    split_ifs at hok with hsome
    · cases hok
      rw [hout] at hsome
      cases hsome
    · rw [if_neg hsome]
      cases happly : (o.settle ev).applyHistoryEvent event with
      | error details =>
        rw [happly] at hok
        cases hok
      | ok ev₁ =>
        rw [happly] at hok
        exact ih hok

/-- An event that is applied to an evaluation that need not be polled. -/
theorem readHistory_of_apply (hpoll : ev.mustPoll = false) (hout : ev.outputOpt = none)
    (happly : ev.applyHistoryEvent event = .ok ev') : o.readHistory (event :: events) ev =
      o.readHistory events ev' := by
  rw [readHistory_cons, settle_of_mustPoll hpoll, hout, happly]
  rfl

/-- What is read after the code has come to rest. -/
theorem readHistory_settle (hout : (o.settle ev).outputOpt = none) {last : Evaluation o.State}
    (hread : o.readHistory events (o.settle ev) = .ok last) (hlast : last.mustPoll = false) :
    ∃ ev', o.readHistory events ev = .ok ev' ∧ o.settle ev' = last := by
  cases events with
  | nil =>
    cases hread
    exact ⟨ev, rfl, rfl⟩
  | cons event events =>
    refine ⟨last, ?_, settle_of_mustPoll hlast⟩
    rw [← hread, readHistory_cons, readHistory_cons, settle_of_mustPoll (mustPoll_settle hout)]

/-! ### Requests -/

/-- A request that is not one of a queue: its event is matched with it, and binds its token as
`convert` does. -/
theorem convertEmittedAction_spec (clock : ℕ → ℕ) (ctx : CtxInner) (e : ReplayEngine) (token : ℕ)
    {request : Request} {kind : ScheduleKind} (hkind : request.scheduleKind = some kind)
    (hqueue : kind ≠ .queueDequeue) :
    ∃ event : Event, event.eventId = e.nextEventId ∧ request.matchesEventKind event.kind = true
      ∧ (∀ ev : Evaluation o.State, ev.applyHistoryEvent event = ev.matchAndBindSchedule event kind)
      ∧ event.kind.activityCancelReason = none ∧ event.kind.queueCancelReason = none
      ∧ (convertEmittedAction clock (ctx, e) (token, request)).1 = ctx.bindToken token e.nextEventId
      ∧ (convertEmittedAction clock (ctx, e) (token, request)).2.historyDelta =
        e.historyDelta ++ [event] := by
  cases request with
  | callActivity name input sessionId tag =>
    cases hkind
    exact ⟨_, rfl, by simp [Request.matchesEventKind], fun _ => rfl, rfl, rfl, rfl, rfl⟩
  | createTimer delayMs =>
    cases hkind
    exact ⟨_, rfl, rfl, fun _ => rfl, rfl, rfl, rfl, rfl⟩
  | dequeueEvent name =>
    cases hkind
    exact absurd rfl hqueue
  | continueAsNew input version => cases hkind

/-- To read the events of new requests is to bind the tokens of the requests. -/
theorem readHistory_converted (clock : ℕ → ℕ) {emitted : List (ℕ × Request)} {e : ReplayEngine}
    (hemitted : ev.emittedActions = emitted) (hpoll : ev.mustPoll = false)
    (hout : ev.outputOpt = none)
    (hkinds : ∀ row ∈ emitted, ∃ kind, row.2.scheduleKind = some kind ∧ kind ≠ .queueDequeue) :
    ∃ (added : List Event) (ev' : Evaluation o.State),
      (convertEmittedActions clock emitted (ev.ctx, e)).2.historyDelta = e.historyDelta ++ added
      ∧ (∀ more, o.readHistory (added ++ more) ev = o.readHistory more ev')
      ∧ ev'.ctx = (convertEmittedActions clock emitted (ev.ctx, e)).1 ∧ ev'.emittedActions = []
      ∧ ev'.mustPoll = false ∧ ev'.outputOpt = none
      ∧ ∀ event ∈ added, event.kind.activityCancelReason = none
      ∧ event.kind.queueCancelReason = none := by
  induction emitted generalizing ev e with
  | nil =>
    exact ⟨[], ev, (List.append_nil _).symm, fun _ => rfl, rfl, hemitted, hpoll, hout,
      fun _ hmem => absurd hmem List.not_mem_nil⟩
  | cons row emitted ih =>
    obtain ⟨token, request⟩ := row
    obtain ⟨kind, hkind, hqueue⟩ := hkinds (token, request) List.mem_cons_self
    obtain ⟨event, hid, hmatches, happly, hactivity, hsubscription, hctx, hdelta⟩ :=
      convertEmittedAction_spec (o := o) clock ev.ctx e token hkind hqueue
    have hbind : ∃ ev₁ : Evaluation o.State, ev.applyHistoryEvent event = .ok ev₁
        ∧ ev₁.ctx = ev.ctx.bindToken token e.nextEventId ∧ ev₁.emittedActions = emitted
        ∧ ev₁.mustPoll = false ∧ ev₁.outputOpt = none := by
      rw [happly, Evaluation.matchAndBindSchedule, hemitted]
      dsimp only
      rw [if_pos hmatches, hid]
      exact ⟨_, rfl, rfl, rfl, hpoll, hout⟩
    obtain ⟨ev₁, hok, hctx₁, hemitted₁, hpoll₁, hout₁⟩ := hbind
    have hstep : convertEmittedActions clock ((token, request) :: emitted) (ev.ctx, e)
        = convertEmittedActions clock emitted
          (ev₁.ctx, (convertEmittedAction clock (ev.ctx, e) (token, request)).2) := by
      rw [hctx₁, ← hctx]
      rfl
    obtain ⟨added, ev', hadded, hread, hctx', hemitted', hpoll', hout', hkinds'⟩ :=
      ih (e := (convertEmittedAction clock (ev.ctx, e) (token, request)).2) hemitted₁ hpoll₁ hout₁
        fun row hrow => hkinds row (List.mem_cons_of_mem _ hrow)
    refine ⟨event :: added, ev', ?_, fun more => ?_, ?_, hemitted', hpoll', hout', ?_⟩
    · rw [hstep, hadded, hdelta, List.append_assoc, List.singleton_append]
    · rw [List.cons_append, readHistory_of_apply hpoll hout hok]
      exact hread more
    · rw [hstep, hctx']
    · exact List.forall_mem_cons.mpr ⟨⟨hactivity, hsubscription⟩, hkinds'⟩

/-! ### The end of a turn -/

/-- To give a request its id changes nothing that a poll of code without a queue looks at. -/
theorem convertEmittedActions_ctx (clock : ℕ → ℕ) (emitted : List (ℕ × Request)) (ctx : CtxInner)
    (e : ReplayEngine) :
    let ctx' := (convertEmittedActions clock emitted (ctx, e)).1
    ctx'.futures = ctx.futures ∧ ctx'.completed = ctx.completed ∧ ctx'.completionResults =
      ctx.completionResults
      ∧ ctx'.emittedActions = ctx.emittedActions := by
  unfold convertEmittedActions
  induction emitted generalizing ctx e with
  | nil => exact ⟨rfl, rfl, rfl, rfl⟩
  | cons row emitted ih =>
    obtain ⟨token, request⟩ := row
    obtain ⟨hfutures, hcompleted, hresults, hemitted⟩ :=
      ih (convertEmittedAction clock (ctx, e) (token, request)).1
      (convertEmittedAction clock (ctx, e) (token, request)).2
    refine ⟨hfutures.trans ?_, hcompleted.trans ?_, hresults.trans ?_, hemitted.trans ?_⟩ <;>
      cases request <;> rfl

theorem prefix_pendingActions (clock : ℕ → ℕ) (emitted : List (ℕ × Request)) (ctx : CtxInner)
    (e : ReplayEngine) :
    e.pendingActions <+: (convertEmittedActions clock emitted (ctx, e)).2.pendingActions := by
  unfold convertEmittedActions
  induction emitted generalizing ctx e with
  | nil => exact List.prefix_rfl
  | cons row emitted ih =>
    have hfirst : e.pendingActions <+: (convertEmittedAction clock (ctx, e) row).2.pendingActions :=
      List.prefix_append _ _
    exact hfirst.trans (ih (convertEmittedAction clock (ctx,
      e) row).1 (convertEmittedAction clock (ctx, e) row).2)

/-- A turn that goes on has not continued as new. -/
theorem scheduleKind_of_continuation (clock : ℕ → ℕ) {emitted : List (ℕ × Request)} {ctx : CtxInner}
    {e : ReplayEngine}
    (h : (convertEmittedActions clock emitted (ctx,
      e)).2.pendingActions.findSome? Action.continuation = none) :
    ∀ row ∈ emitted, ∃ kind, row.2.scheduleKind = some kind := by
  induction emitted generalizing ctx e with
  | nil => exact fun _ hmem => absurd hmem List.not_mem_nil
  | cons row emitted ih =>
    refine List.forall_mem_cons.mpr ⟨?_, ih h⟩
    obtain ⟨token, request⟩ := row
    cases request with
    | continueAsNew input version =>
      have hmem : Action.continueAsNew input version ∈
          (convertEmittedActions clock ((token, .continueAsNew input version) :: emitted) (ctx,
            e)).2.pendingActions :=
        (prefix_pendingActions clock emitted (convertEmittedAction clock (ctx, e) (token,
          .continueAsNew input version)).1
          (convertEmittedAction clock (ctx, e) (token, .continueAsNew input version)).2).subset
          (List.mem_append_right _ List.mem_cons_self)
      exact absurd (List.findSome?_eq_none_iff.mp h _ hmem) (Option.some_ne_none _)
    | _ => exact ⟨_, rfl⟩

theorem scheduleKind_of_ongoing {clock : ℕ → ℕ} {emitted : List (ℕ × Request)} {ctx : CtxInner}
    {e : ReplayEngine} (hqueue : NoQueue emitted ctx)
    (h : (convertEmittedActions clock emitted (ctx,
      e)).2.pendingActions.findSome? Action.continuation = none) :
    ∀ row ∈ emitted, ∃ kind, row.2.scheduleKind = some kind ∧ kind ≠ .queueDequeue := by
  intro row hrow
  obtain ⟨kind, hkind⟩ := scheduleKind_of_continuation clock h row hrow
  have hnot := hqueue.emitted row (List.mem_append_left _ hrow)
  rw [hkind] at hnot
  exact ⟨kind, hkind, fun heq => hnot (congrArg some heq)⟩

/-- Code that rests emits nothing more. -/
theorem runQuiescenceLoop_rests (clock : ℕ → ℕ) (n : ℕ) {e : ReplayEngine}
    (hrests : Rests ev.ctx ev.fut) (hrunning : ∀ out, ev.fut ≠ .finish out)
    (hemitted : ev.emittedActions = []) (htaken : ev.ctx.emittedActions = []) :
    ∃ ev', o.runQuiescenceLoop clock (n + 2) (ev, e) = .ok (ev', e) ∧ ev'.ctx = ev.ctx
      ∧ (ev.outputOpt = none → ev'.outputOpt = none) := by
  have hctx : { ev.ctx with emittedActions := [] } = ev.ctx := by
    rw [← htaken]
  have hpolled : o.pollOrchestrationFuture ev = { ev with outputOpt := none } := by
    unfold pollOrchestrationFuture
    rw [o.poll_of_rests hrests]
    dsimp only
    rw [hctx, hemitted, htaken]
    cases hfut : ev.fut with
    | finish out => exact absurd hfut (hrunning out)
    | _ => rfl
  have hnext : o.convert clock (o.pollOrchestrationFuture ev, e) =
      ({ ev with outputOpt := none }, e) := by
    rw [hpolled]
    unfold convert
    dsimp only
    rw [hemitted]
    simp [convertEmittedActions]
  unfold runQuiescenceLoop
  dsimp only
  rw [hnext]
  by_cases hdone : (ev.outputOpt.isSome || e.pendingActions.isEmpty) = true
  · rw [if_pos hdone]
    exact ⟨ev, rfl, rfl, id⟩
  · rw [if_neg hdone, if_pos rfl, if_neg (Nat.succ_ne_zero n)]
    exact ⟨_, rfl, rfl, fun _ => rfl⟩

/-- The cancellations of activities that a turn adds. -/
theorem foldl_cancelActivity (ids : List ℕ) (e : ReplayEngine) :
    ∃ added : List Event, (ids.foldl ReplayEngine.cancelActivity e).historyDelta =
      e.historyDelta ++ added
      ∧ (ids.foldl ReplayEngine.cancelActivity e).baselineHistory = e.baselineHistory
      ∧ (∀ event ∈ added, event.kind = .activityCancelRequested "dropped_future"
        ∧ ∃ id ∈ ids, event.sourceEventId = some id)
      ∧ ∀ id ∈ ids, id ∈ (ids.foldl ReplayEngine.cancelActivity e).alreadyCancelled
        EventKind.activityCancelReason := by
  induction ids generalizing e with
  | nil =>
    exact ⟨[], (List.append_nil _).symm, rfl, fun _ hmem => absurd hmem List.not_mem_nil,
      fun _ hmem => absurd hmem List.not_mem_nil⟩
  | cons id ids ih =>
    obtain ⟨added, hdelta, hbaseline, hadded, hall⟩ := ih (e.cancelActivity id)
    have hfirst : ∃ first : List Event, (e.cancelActivity id).historyDelta = e.historyDelta ++ first
        ∧ (e.cancelActivity id).baselineHistory = e.baselineHistory
        ∧ (∀ event ∈ first, event.kind = .activityCancelRequested "dropped_future"
          ∧ event.sourceEventId = some id)
        ∧ id ∈ (e.cancelActivity id).alreadyCancelled EventKind.activityCancelReason := by
      unfold ReplayEngine.cancelActivity
      split_ifs with hold
      · exact ⟨[], (List.append_nil _).symm, rfl, fun _ hmem => absurd hmem List.not_mem_nil, hold⟩
      · refine ⟨_, rfl, rfl, List.forall_mem_cons.mpr ⟨⟨rfl, rfl⟩, fun _ hmem =>
          absurd hmem List.not_mem_nil⟩, ?_⟩
        exact List.mem_filterMap.mpr ⟨⟨e.nextEventId, some id,
          .activityCancelRequested "dropped_future"⟩,
          List.mem_append_right _ (List.mem_append_right _ List.mem_cons_self), rfl⟩
    obtain ⟨first, hdelta₁, hbaseline₁, hfirst, hid⟩ := hfirst
    refine ⟨first ++ added, ?_, hbaseline.trans hbaseline₁, fun event hmem => ?_,
      List.forall_mem_cons.mpr ⟨?_, hall⟩⟩
    · rw [List.foldl_cons, hdelta, hdelta₁, List.append_assoc]
    · rcases List.mem_append.mp hmem with hmem | hmem
      · exact ⟨(hfirst event hmem).1, id, List.mem_cons_self, (hfirst event hmem).2⟩
      · obtain ⟨hkind, id', hid', hsource⟩ := hadded event hmem
        exact ⟨hkind, id', List.mem_cons_of_mem _ hid', hsource⟩
    · obtain ⟨event, hevent, hsource⟩ := List.mem_filterMap.mp hid
      refine List.mem_filterMap.mpr ⟨event, ?_, hsource⟩
      rw [List.foldl_cons, ReplayEngine.finalHistory, hdelta, hbaseline, ← List.append_assoc]
      exact List.mem_append_left _ hevent

/-- What has been cancelled is not cancelled again. -/
theorem foldl_cancelActivity_of_mem {ids : List ℕ} {e : ReplayEngine}
    (h : ∀ id ∈ ids, id ∈ e.alreadyCancelled EventKind.activityCancelReason) :
    ids.foldl ReplayEngine.cancelActivity e = e := by
  induction ids with
  | nil => rfl
  | cons id ids ih =>
    rw [List.foldl_cons, ReplayEngine.cancelActivity, if_pos (h id List.mem_cons_self)]
    exact ih fun id' hid' => h id' (List.mem_cons_of_mem _ hid')

/-- Cancellations of activities are read without effect. -/
theorem readHistory_cancellations (hpoll : ev.mustPoll = false) (hout : ev.outputOpt = none)
    (h : ∀ event ∈ events, event.kind = .activityCancelRequested "dropped_future") :
    o.readHistory events ev = .ok ev := by
  induction events with
  | nil => rfl
  | cons event events ih =>
    have happly : ev.applyHistoryEvent event = .ok ev := by
      unfold Evaluation.applyHistoryEvent
      rw [h event List.mem_cons_self]
      rfl
    rw [readHistory_of_apply hpoll hout happly]
    exact ih fun event' hmem => h event' (List.mem_cons_of_mem _ hmem)

theorem outputOpt_of_settle (h : (o.settle ev).outputOpt = none) : ev.outputOpt = none := by
  unfold settle at h
  split_ifs at h with hpoll
  · simpa using (Bool.and_eq_true_iff.mp hpoll).2
  · exact h

/-- What a turn that goes on has gone through. -/
theorem executeOrchestration_ongoing {clock : ℕ → ℕ} {state : o.State} {e e' : ReplayEngine}
    (h : o.executeOrchestration clock state e = (.ongoing, e'))
    (hrunning : Execution.ended e'.finalHistory = false) :
    ∃ first rest ev done, e.finalHistory = first :: rest ∧ first.kind.isStarted = true
      ∧ o.readHistory e.finalHistory (.init state) = .ok ev ∧ o.finish clock e ev = .ok done
      ∧ done.2.finalizeTurn done.1.ctx done.1.outputOpt = (.ongoing, e') := by
  unfold executeOrchestration at h
  split at h
  · cases h
  split_ifs at h with hended
  · cases h
    exact absurd (hended.symm.trans hrunning) (by decide)
  split at h
  · cases h
  rename_i first rest hfinal
  split_ifs at h with hstarted
  · cases h
  split at h
  · cases h
  rename_i ev hread
  cases hfinish : o.finish clock e ev with
  | error failed =>
    rw [hfinish] at h
    cases h
  | ok done =>
    rw [hfinish] at h
    exact ⟨first, rest, ev, done, hfinal, by simpa using hstarted, hread, hfinish, h⟩

theorem finalizeTurn_ongoing {e e' : ReplayEngine} {ctx : CtxInner}
    {outputOpt : Option (Except String String)}
    (h : e.finalizeTurn ctx outputOpt = (.ongoing, e')) :
    (e.finalHistory.findSome? fun event => event.kind.cancelReason) = none
      ∧ e.pendingActions.findSome? Action.continuation = none
      ∧ e.collectCancelledFromContext ctx = .ok e'
      ∧ outputOpt = none := by
  unfold ReplayEngine.finalizeTurn at h
  split at h
  · cases h
  rename_i hcancel
  split at h
  · cases h
  rename_i hcontinuation
  split at h
  · cases h
  rename_i e₁ hcollect
  split at h <;> cases h
  exact ⟨hcancel, hcontinuation, hcollect, rfl⟩

theorem cancelDropped_eq (h : NoQueue ev.emittedActions ev.ctx) : o.cancelDropped ev = ev := by
  unfold cancelDropped
  rw [h.cancelledIds]
  rfl

theorem runQuiescenceLoop_of_output (clock : ℕ → ℕ) (n : ℕ) {e : ReplayEngine}
    (h : (ev.outputOpt.isSome || e.pendingActions.isEmpty) = true) :
    o.runQuiescenceLoop clock (n + 1) (ev, e) = .ok (ev, e) := by
  unfold runQuiescenceLoop
  exact if_pos h

theorem convertEmittedActions_frame (clock : ℕ → ℕ) (emitted : List (ℕ × Request)) (ctx : CtxInner)
    (e : ReplayEngine) :
    let e' := (convertEmittedActions clock emitted (ctx, e)).2
    e'.baselineHistory = e.baselineHistory ∧ e'.persistedHistoryLen = e.persistedHistoryLen := by
  unfold convertEmittedActions
  induction emitted generalizing ctx e with
  | nil => exact ⟨rfl, rfl⟩
  | cons row emitted ih =>
    obtain ⟨hbaseline, hlen⟩ :=
      ih (convertEmittedAction clock (ctx, e) row).1 (convertEmittedAction clock (ctx, e) row).2
    exact ⟨hbaseline, hlen⟩

/-- What the evaluation of a turn that goes on has come to: its requests are converted, and nothing
else happens. -/
theorem finish_ongoing {clock : ℕ → ℕ} {e e' : ReplayEngine}
    {done : Evaluation o.State × ReplayEngine} (hcalm : (o.settle ev).Calm)
    (hfinish : o.finish clock e ev = .ok done)
    (hfinal : done.2.finalizeTurn done.1.ctx done.1.outputOpt = (.ongoing, e')) :
    (o.settle ev).outputOpt = none
      ∧ done.2 = (convertEmittedActions clock (o.settle ev).emittedActions ((o.settle ev).ctx, e)).2
      ∧ done.1.ctx = (convertEmittedActions clock (o.settle ev).emittedActions ((o.settle ev).ctx,
        e)).1 := by
  obtain ⟨-, -, -, hnone⟩ := finalizeTurn_ongoing hfinal
  unfold finish at hfinish
  rw [cancelDropped_eq hcalm.noQueue] at hfinish
  have hout : (o.settle ev).outputOpt = none := by
    by_contra hsome
    have hsome' : ((o.convert clock (o.settle ev, e)).1.outputOpt.isSome
        || (o.convert clock (o.settle ev, e)).2.pendingActions.isEmpty) = true := by
      have hsame : (o.convert clock (o.settle ev, e)).1.outputOpt = (o.settle ev).outputOpt := rfl
      rw [hsame, Option.isSome_iff_ne_none.mpr hsome, Bool.true_or]
    have hstop := runQuiescenceLoop_of_output clock 99 hsome'
    rw [show (100 : ℕ) = 99 + 1 from rfl, show o.convert clock (o.settle ev, e)
      = ((o.convert clock (o.settle ev, e)).1, (o.convert clock (o.settle ev, e)).2) from rfl,
      hstop] at hfinish
    cases hfinish
    exact hsome hnone
  have hpoll := mustPoll_settle hout
  obtain ⟨hfutures, hcompleted, hresults, hemitted⟩ :=
    convertEmittedActions_ctx clock (o.settle ev).emittedActions (o.settle ev).ctx e
  have hrests := (hcalm.rests hpoll).congr hcalm.noQueue hfutures hcompleted hresults
  have hrunning : ∀ out, (o.settle ev).fut ≠ .finish out := fun out hfut => by
    have := hcalm.output hpoll out hfut
    rw [hout] at this
    cases this
  obtain ⟨ev₂, hloop, hctx, -⟩ : ∃ ev₂,
    o.runQuiescenceLoop clock (98 + 2) (o.convert clock (o.settle ev, e))
      = .ok (ev₂, (o.convert clock (o.settle ev, e)).2)
        ∧ ev₂.ctx = (o.convert clock (o.settle ev, e)).1.ctx
      ∧ ((o.convert clock (o.settle ev, e)).1.outputOpt = none → ev₂.outputOpt = none) :=
    runQuiescenceLoop_rests clock 98 hrests hrunning rfl (hemitted.trans hcalm.taken)
  rw [show (100 : ℕ) = 98 + 2 from rfl, hloop] at hfinish
  cases hfinish
  exact ⟨hout, rfl, hctx⟩

/-! ### Again -/

theorem executeOrchestration_of {clock : ℕ → ℕ} {state : o.State} {e : ReplayEngine} {first : Event}
    {rest : List Event} {done : Evaluation o.State × ReplayEngine} (habort : e.abortError = none)
    (hrunning : Execution.ended e.finalHistory = false) (hfirst : e.finalHistory = first :: rest)
    (hstarted : first.kind.isStarted = true)
    (hread : o.readHistory e.finalHistory (.init state) = .ok ev)
    (hfinish : o.finish clock e ev = .ok done) :
    o.executeOrchestration clock state e = done.2.finalizeTurn done.1.ctx done.1.outputOpt := by
  unfold Execution.ended at hrunning
  unfold executeOrchestration
  rw [hfirst] at hrunning hread
  simp only [habort, hfirst, hrunning, hstarted, hread, hfinish, Bool.false_eq_true,
    Bool.not_true, if_false]

theorem finalizeTurn_of {e : ReplayEngine} {ctx : CtxInner}
    (hcancel : (e.finalHistory.findSome? fun event => event.kind.cancelReason) = none)
    (hcontinuation : e.pendingActions.findSome? Action.continuation = none)
    (hcollect : e.collectCancelledFromContext ctx = .ok e) :
      e.finalizeTurn ctx none = (.ongoing, e) := by
  unfold ReplayEngine.finalizeTurn
  simp only [hcancel, hcontinuation, hcollect]

/-- Cancellations that are all recorded change nothing. -/
theorem collectCancelledFromContext_of {e : ReplayEngine} {ctx : CtxInner}
    (hactivities : e.reproduces EventKind.activityCancelReason EventKind.isActivityScheduled
      (ctx.cancelledIds .activity) = true)
    (hqueues : e.reproduces EventKind.queueCancelReason EventKind.isQueueSubscribed [] = true)
    (hids : ctx.cancelledIds .queueDequeue = [])
    (hall : ∀ id ∈ ctx.cancelledIds .activity,
      id ∈ e.alreadyCancelled EventKind.activityCancelReason) :
    e.collectCancelledFromContext ctx = .ok e := by
  unfold ReplayEngine.collectCancelledFromContext
  rw [hids, hactivities, hqueues, foldl_cancelActivity_of_mem hall]
  rfl

/-- A turn of an engine whose history has nothing new for the code. -/
theorem executeOrchestration_idle {clock : ℕ → ℕ} {state : o.State}
    {e : ReplayEngine} {first : Event} {rest : List Event} {last : Evaluation o.State}
    (habort : e.abortError = none) (hpending : e.pendingActions = [])
    (hrunning : Execution.ended e.finalHistory = false) (hfirst : e.finalHistory = first :: rest)
    (hstarted : first.kind.isStarted = true)
    (hcancel : (e.finalHistory.findSome? fun event => event.kind.cancelReason) = none)
    (hread : o.readHistory e.finalHistory (.init state) = .ok ev) (hsettled : o.settle ev = last)
    (hnoQueue : NoQueue last.emittedActions last.ctx) (hemitted : last.emittedActions = [])
    (hout : last.outputOpt = none) (hcollect : e.collectCancelledFromContext last.ctx = .ok e) :
    o.executeOrchestration clock state e = (.ongoing, e) := by
  have hfinish : o.finish clock e ev = .ok ({ last with emittedActions := [] }, e) := by
    unfold finish
    rw [hsettled, cancelDropped_eq hnoQueue]
    unfold convert
    dsimp only
    rw [hemitted]
    refine runQuiescenceLoop_of_output clock 99 ?_
    rw [show (convertEmittedActions clock [] (last.ctx, e)).2 = e from rfl, hpending]
    exact Bool.or_true _
  rw [executeOrchestration_of habort hrunning hfirst hstarted hread hfinish]
  dsimp only
  rw [hout]
  refine finalizeTurn_of hcancel ?_ hcollect
  rw [hpending]
  rfl

/-- What a turn finds cancelled was found by the one before it, or is one of its cancellations. -/
theorem mem_droppedIn_again {e next : ReplayEngine} {reason : EventKind → Option String}
    {history cancels : List Event}
    (hnext : next.baselineHistory.take next.persistedHistoryLen = history ++ cancels)
    (hpersisted : ∀ event ∈ history,
      reason event.kind = none ∨ event ∈ e.baselineHistory.take e.persistedHistoryLen) {id : ℕ}
    (hid : id ∈ next.droppedIn reason) :
    id ∈ e.droppedIn reason
      ∨ ∃ event ∈ cancels, reason event.kind = some "dropped_future"
        ∧ event.sourceEventId = some id := by
  unfold ReplayEngine.droppedIn at hid
  rw [hnext] at hid
  obtain ⟨event, hmem, hfound⟩ := List.mem_filterMap.mp hid
  split_ifs at hfound with hreason
  rcases List.mem_append.mp hmem with hold | hcancel
  · rcases hpersisted event hold with hnone | htake
    · exact absurd (hnone.symm.trans hreason) (Option.some_ne_none _).symm
    · exact .inl (List.mem_filterMap.mpr ⟨event, htake, (if_pos hreason).trans hfound⟩)
  · exact .inr ⟨event, hcancel, hreason, hfound⟩

/-- An activity that a well-formed history cancels has been scheduled in it. -/
theorem mem_scheduledIn_of_droppedIn {e : ReplayEngine}
    (hw : WellFormed (e.baselineHistory.take e.persistedHistoryLen)) {id : ℕ}
    (hid : id ∈ e.droppedIn EventKind.activityCancelReason) :
      id ∈ e.scheduledIn EventKind.isActivityScheduled := by
  obtain ⟨event, hmem, hfound⟩ := List.mem_filterMap.mp hid
  split_ifs at hfound with hreason
  obtain ⟨event', hmem', hid', -, hkind⟩ :=
    hw.answered event hmem _ (answers_of_cancelled hreason hfound)
  exact List.mem_map.mpr ⟨event',
    List.mem_filter.mpr ⟨hmem', isActivityScheduled_of_schedules hkind⟩, hid'⟩

theorem mem_of_reproduces {e : ReplayEngine} {reason : EventKind → Option String}
    {scheduled : EventKind → Bool} {live : List ℕ} (h : e.reproduces reason scheduled live = true)
    {id : ℕ} (hid : id ∈ e.droppedIn reason) : id ∈ live :=
  of_decide_eq_true (Bool.and_eq_true_iff.mp (List.all_eq_true.mp h id hid)).1

/-- What a turn that goes on leaves, where the code takes nothing from a queue: it has come to
`last`, and has added its requests and its cancellations to the history. -/
structure Leaves (o : Orchestration) (state : o.State) (e e' : ReplayEngine)
    (last : Evaluation o.State) : Prop where
  started : ∃ first rest, e'.finalHistory = first :: rest ∧ first.kind.isStarted = true
  notCancelled : (e'.finalHistory.findSome? fun event => event.kind.cancelReason) = none
  read : ∃ ev, o.readHistory e'.finalHistory (.init state) = .ok ev ∧ o.settle ev = last
  noQueue : NoQueue last.emittedActions last.ctx
  emittedActions : last.emittedActions = []
  outputOpt : last.outputOpt = none
  added : ∃ requests cancels, e'.finalHistory = e.finalHistory ++ requests ++ cancels
    ∧ (∀ event ∈ requests, Uncancelled event)
    ∧ ∀ event ∈ cancels, event.kind = .activityCancelRequested "dropped_future"
      ∧ ∃ id ∈ last.ctx.cancelledIds .activity, event.sourceEventId = some id
  reproduced : ∀ id ∈ e.droppedIn EventKind.activityCancelReason,
    id ∈ last.ctx.cancelledIds .activity
  noSubscription : e.droppedIn EventKind.queueCancelReason = []
  cancelled : ∀ id ∈ last.ctx.cancelledIds .activity,
    id ∈ e'.alreadyCancelled EventKind.activityCancelReason

theorem leaves_of_ongoing (ho : o.Plain) {clock : ℕ → ℕ} {state : o.State} {e e' : ReplayEngine}
    (h : o.executeOrchestration clock state e = (.ongoing, e'))
    (hrunning : Execution.ended e'.finalHistory = false) : ∃ last, Leaves o state e e' last := by
  obtain ⟨first, rest, ev, done, hfirst, hstarted, hread, hfinish, hfinal⟩ :=
    executeOrchestration_ongoing h hrunning
  have hcalm := ((Evaluation.Calm.init state).readHistory ho hread).settle ho
  obtain ⟨hout, hengine, hctx⟩ := finish_ongoing hcalm hfinish hfinal
  obtain ⟨hcancel, hcontinuation, hcollect, -⟩ := finalizeTurn_ongoing hfinal
  rw [hengine] at hcancel hcontinuation hcollect
  rw [hctx] at hcollect
  -- The requests of the turn, and their events.
  have hkinds := scheduleKind_of_ongoing hcalm.noQueue hcontinuation
  obtain ⟨requests, last, hrequests, hreadRequests, hlastCtx, hlastEmitted, hlastPoll,
      hlastOut, huncancelled⟩ :=
    readHistory_converted clock (e := e) rfl (mustPoll_settle hout) hout hkinds
  obtain ⟨hbaseline, hlen⟩ :=
    convertEmittedActions_frame clock (o.settle ev).emittedActions (o.settle ev).ctx e
  obtain ⟨hfutures, -, -, htaken⟩ :=
    convertEmittedActions_ctx clock (o.settle ev).emittedActions (o.settle ev).ctx e
  generalize convertEmittedActions clock (o.settle ev).emittedActions ((o.settle ev).ctx, e) =
    converted
    at hcancel hcollect hrequests hlastCtx hbaseline hlen hfutures htaken
  have hnoQueue : NoQueue last.emittedActions last.ctx := by
    refine ⟨fun row hrow => hcalm.noQueue.futures row ?_, fun row hrow => ?_⟩
    · rw [← hfutures, ← hlastCtx]
      exact hrow
    · rw [hlastEmitted, hlastCtx, htaken, hcalm.taken] at hrow
      exact absurd hrow List.not_mem_nil
  have hconverted : converted.2.finalHistory = e.finalHistory ++ requests := by
    rw [ReplayEngine.finalHistory, hbaseline, hrequests, ← List.append_assoc]
    rfl
  have hdropped : ∀ reason, converted.2.droppedIn reason = e.droppedIn reason := fun reason => by
    unfold ReplayEngine.droppedIn
    rw [hbaseline, hlen]
  -- The cancellations of the turn, and their events.
  rw [← hlastCtx] at hcollect
  unfold ReplayEngine.collectCancelledFromContext at hcollect
  rw [hnoQueue.cancelledIds] at hcollect
  split_ifs at hcollect with hactivities hqueues
  obtain rfl : (last.ctx.cancelledIds .activity).foldl ReplayEngine.cancelActivity converted.2 =
      e' :=
    Except.ok.inj hcollect
  obtain ⟨cancels, hcancels, hbaseline', hcancelKinds, hall⟩ :=
    foldl_cancelActivity (last.ctx.cancelledIds .activity) converted.2
  have hhistory : ((last.ctx.cancelledIds .activity).foldl ReplayEngine.cancelActivity
    converted.2).finalHistory
      = e.finalHistory ++ requests ++ cancels := by
    rw [← hconverted, ReplayEngine.finalHistory, hbaseline', hcancels, ← List.append_assoc]
    rfl
  obtain ⟨again, hagain, hsettled⟩ := readHistory_settle hout
    ((hreadRequests cancels).trans (readHistory_cancellations hlastPoll hlastOut fun event hmem =>
      (hcancelKinds event hmem).1)) hlastPoll
  exact ⟨last, {
    started := ⟨first, rest ++ requests ++ cancels, by rw [hhistory, hfirst]; rfl, hstarted⟩
    notCancelled := by
      rw [hhistory, ← hconverted]
      refine List.findSome?_eq_none_iff.mpr fun event hmem => ?_
      rcases List.mem_append.mp hmem with hmem | hmem
      · exact List.findSome?_eq_none_iff.mp hcancel event hmem
      · rw [(hcancelKinds event hmem).1]
        rfl
    read := by
      refine ⟨again, ?_, hsettled⟩
      rw [hhistory, List.append_assoc, readHistory_append hread (outputOpt_of_settle hout)]
      exact hagain
    noQueue := hnoQueue
    emittedActions := hlastEmitted
    outputOpt := hlastOut
    added := ⟨requests, cancels, hhistory, huncancelled, hcancelKinds⟩
    reproduced := fun id hid =>
      mem_of_reproduces (e := converted.2) (by simpa using hactivities)
        (hdropped EventKind.activityCancelReason ▸ hid)
    noSubscription := List.eq_nil_iff_forall_not_mem.mpr fun id hid =>
      List.not_mem_nil (mem_of_reproduces (e := converted.2) (by simpa using hqueues)
        (hdropped EventKind.queueCancelReason ▸ hid))
    cancelled := hall }⟩

/-- A turn that goes on, from an engine that has taken its messages: what it leaves is read, by the
next one, as what the code does. -/
theorem executeOrchestration_again (ho : o.Plain) {clock : ℕ → ℕ} {state : o.State}
    {e e' : ReplayEngine} (h : o.executeOrchestration clock state e = (.ongoing, e'))
    (hw : WellFormed e'.finalHistory) (hrunning : Execution.ended e'.finalHistory = false)
    (hpersisted : ∀ event ∈ e.finalHistory, Uncancelled event
      ∨ event ∈ e.baselineHistory.take e.persistedHistoryLen)
    (clock' : ℕ → ℕ) (executionId : ℕ) :
    o.executeOrchestration clock' state (.new executionId e'.finalHistory e'.finalHistory.length)
      = (.ongoing, .new executionId e'.finalHistory e'.finalHistory.length) := by
  obtain ⟨last, hleaves⟩ := leaves_of_ongoing ho h hrunning
  obtain ⟨first, rest, hfirst, hstarted⟩ := hleaves.started
  obtain ⟨ev, hread, hsettled⟩ := hleaves.read
  obtain ⟨requests, cancels, hhistory, huncancelled, hcancels⟩ := hleaves.added
  have hold : ∀ event ∈ e.finalHistory ++ requests,
      Uncancelled event ∨ event ∈ e.baselineHistory.take e.persistedHistoryLen := fun event hmem =>
    (List.mem_append.mp hmem).elim (hpersisted event) fun hmem => .inl (huncancelled event hmem)
  generalize hnew : ReplayEngine.new executionId e'.finalHistory e'.finalHistory.length = next
  have hnext : next.finalHistory = e'.finalHistory := by
    rw [← hnew]
    exact List.append_nil _
  have hbefore : next.baselineHistory.take next.persistedHistoryLen = e'.finalHistory := by
    rw [← hnew]
    exact List.take_length
  have hactivities : next.reproduces EventKind.activityCancelReason EventKind.isActivityScheduled
      (last.ctx.cancelledIds .activity) = true := by
    refine List.all_eq_true.mpr fun id hid => ?_
    have hdropped : id ∈ last.ctx.cancelledIds .activity := by
      rcases mem_droppedIn_again (hbefore.trans hhistory) (fun event hmem =>
        (hold event hmem).imp_left And.left) hid
        with hfound | ⟨event, hmem, -, hsource⟩
      · exact hleaves.reproduced id hfound
      · obtain ⟨-, id', hid', hsource'⟩ := hcancels event hmem
        obtain rfl := Option.some_inj.mp (hsource'.symm.trans hsource)
        exact hid'
    have hscheduled := mem_scheduledIn_of_droppedIn (hbefore.symm ▸ hw) hid
    rw [decide_eq_true hdropped, decide_eq_true hscheduled]
    rfl
  have hqueues : next.reproduces EventKind.queueCancelReason EventKind.isQueueSubscribed [] =
      true := by
    refine List.all_eq_true.mpr fun id hid => ?_
    exfalso
    rcases mem_droppedIn_again (hbefore.trans hhistory) (fun event hmem =>
      (hold event hmem).imp_left And.right) hid
      with hfound | ⟨event, hmem, hreason, -⟩
    · rw [hleaves.noSubscription] at hfound
      exact List.not_mem_nil hfound
    · rw [(hcancels event hmem).1] at hreason
      cases hreason
  have hcancelled : ∀ id ∈ last.ctx.cancelledIds .activity,
      id ∈ next.alreadyCancelled EventKind.activityCancelReason := by
    unfold ReplayEngine.alreadyCancelled
    rw [hnext]
    exact hleaves.cancelled
  exact executeOrchestration_idle (by rw [← hnew]; rfl) (by rw [← hnew]; rfl)
    (hnext.symm ▸ hrunning)
    (hnext.trans hfirst) hstarted (hnext.symm ▸ hleaves.notCancelled) (hnext.symm ▸
      hread) hsettled hleaves.noQueue
    hleaves.emittedActions hleaves.outputOpt
    (collectCancelledFromContext_of hactivities hqueues hleaves.noQueue.cancelledIds hcancelled)

end Orchestration

/-! ### Turns without messages -/

theorem completionEvent_uncancelled {e : ReplayEngine} {msg : WorkItem} {sourceEventId : Option ℕ}
    {kind : EventKind} (h : (e.completionEvent msg).1 = some (sourceEventId, kind)) :
    kind.activityCancelReason = none ∧ kind.queueCancelReason = none := by
  cases msg with
  | cancelInstance instanceId reason =>
    dsimp only [ReplayEngine.completionEvent] at h
    split_ifs at h
    cases h
    exact ⟨rfl, rfl⟩
  | _ => cases h <;> exact ⟨rfl, rfl⟩

/-- The messages of a turn cancel no future. -/
theorem prepCompletions_frame (e : ReplayEngine) (messages : List WorkItem) :
    (e.prepCompletions messages).baselineHistory = e.baselineHistory
      ∧ (e.prepCompletions messages).persistedHistoryLen = e.persistedHistoryLen
      ∧ ∀ event ∈ (e.prepCompletions messages).historyDelta, event ∈ e.historyDelta
        ∨ Uncancelled event := by
  unfold ReplayEngine.prepCompletions
  induction messages generalizing e with
  | nil => exact ⟨rfl, rfl, fun _ hmem => .inl hmem⟩
  | cons msg messages ih =>
    have hone : (e.prepCompletion msg).baselineHistory = e.baselineHistory
        ∧ (e.prepCompletion msg).persistedHistoryLen = e.persistedHistoryLen
        ∧ ∀ event ∈ (e.prepCompletion msg).historyDelta, event ∈ e.historyDelta
          ∨ Uncancelled event := by
      unfold ReplayEngine.prepCompletion
      split_ifs
      · exact ⟨rfl, rfl, fun _ hmem => .inl hmem⟩
      split
      · exact ⟨rfl, rfl, fun _ hmem => .inl hmem⟩
      dsimp only
      split
      · rename_i sourceEventId kind hevent
        refine ⟨rfl, rfl, fun event hmem => (List.mem_append.mp hmem).imp_right fun hlast => ?_⟩
        rw [List.mem_singleton.mp hlast]
        exact completionEvent_uncancelled hevent
      · exact ⟨rfl, rfl, fun _ hmem => .inl hmem⟩
    obtain ⟨hbaseline, hlen, hdelta⟩ := hone
    obtain ⟨hbaseline', hlen', hdelta'⟩ := ih (e.prepCompletion msg)
    exact ⟨hbaseline'.trans hbaseline, hlen'.trans hlen, fun event hmem =>
      (hdelta' event hmem).elim (hdelta event) .inr⟩

namespace Execution

variable {x : Execution}

theorem runTurn_again (hplain : x.orchestration.Plain) {baseline : List Event}
    (hw : WellFormed baseline) (hr : ended baseline = false) {len : ℕ}
    (hlen : ∀ event ∈ baseline, Uncancelled event ∨ event ∈ baseline.take len) {turn : Turn}
    {e : ReplayEngine}
    (h : x.orchestration.runTurn turn.clock (x.orchestration.start x.instanceId x.input)
      x.executionId baseline len
      turn.messages = (.ongoing, e)) (clock : ℕ → ℕ) :
    x.orchestration.runTurn clock (x.orchestration.start x.instanceId x.input)
      x.executionId e.finalHistory
      e.finalHistory.length [] = (.ongoing,
        .new x.executionId e.finalHistory e.finalHistory.length) := by
  have hsound :=
    Sound.runTurn hw hr turn.clock (x.orchestration.start x.instanceId x.input) x.executionId len
    turn.messages
  rw [h] at hsound
  obtain ⟨hbaseline, hpersisted, hdelta⟩ :=
    prepCompletions_frame (ReplayEngine.new x.executionId baseline len) turn.messages
  refine Orchestration.executeOrchestration_again hplain h hsound.wellFormed hsound.running
    (fun event hmem => ?_) clock
    x.executionId
  rw [hbaseline, hpersisted]
  rw [ReplayEngine.finalHistory, hbaseline] at hmem
  rcases List.mem_append.mp hmem with hold | hnew
  · exact hlen event hold
  · exact .inl ((hdelta event hnew).resolve_left List.not_mem_nil)

theorem commitTurn_ongoing {baseline : List Event} (hw : WellFormed baseline)
    (hr : ended baseline = false) {len : ℕ} {turn : Turn}
    (h : ended (x.commitTurn baseline len turn).history = false) :
    ∃ e, x.orchestration.runTurn turn.clock (x.orchestration.start x.instanceId x.input)
      x.executionId baseline len
      turn.messages = (.ongoing, e)
        ∧ (x.commitTurn baseline len turn).history = e.finalHistory := by
  have hsound :=
    Sound.runTurn hw hr turn.clock (x.orchestration.start x.instanceId x.input) x.executionId len
    turn.messages
  unfold commitTurn at h ⊢
  generalize x.orchestration.runTurn turn.clock (x.orchestration.start x.instanceId x.input)
    x.executionId baseline
    len turn.messages = run at hsound h ⊢
  obtain ⟨result, e⟩ := run
  dsimp only at hsound h ⊢
  cases hending : result.ending with
  | none =>
    cases result with
    | ongoing => exact ⟨e, rfl, rfl⟩
    | _ => cases hending
  | some ending =>
    obtain ⟨kind, reason⟩ := ending
    rw [hending] at h
    dsimp only at h
    rw [ended_cancelInflight (ended_endExecution e.finalHistory hending)] at h
    cases h

theorem uncancelled_started : Uncancelled x.started := ⟨rfl, rfl⟩

/-- A turn without messages after a turn that goes on. -/
theorem step_again (hplain : x.orchestration.Plain) {history : List Event} (hw : WellFormed history)
    (hr : ended history = false) {turn : Turn} (h : ended (x.step history turn).history = false)
    (clock : ℕ → ℕ) :
    x.step (x.step history turn).history ⟨clock, []⟩ =
      ⟨(x.step history turn).history, [], [], []⟩ := by
  -- The history that the turn has begun with, and how much of it was persisted.
  obtain ⟨baseline, len, hstep, hw', hr', hlen, hne⟩ : ∃ baseline len,
      x.step history turn = x.commitTurn baseline len turn ∧ WellFormed baseline
        ∧ ended baseline = false
        ∧ (∀ event ∈ baseline, Uncancelled event ∨ event ∈ baseline.take len) ∧ baseline ≠ [] := by
    unfold step
    rw [if_neg (by rw [hr]; exact Bool.false_ne_true)]
    cases history with
    | nil =>
      refine ⟨[x.started], 0, if_pos rfl, wellFormed_started, rfl, fun event hmem => .inl ?_,
        List.cons_ne_nil _ _⟩
      rw [List.mem_singleton.mp hmem]
      exact uncancelled_started
    | cons event events =>
      exact ⟨event :: events, _, if_neg Bool.false_ne_true, hw, hr, fun _ hmem =>
        .inr (List.take_length.symm ▸ hmem),
        List.cons_ne_nil _ _⟩
  rw [hstep] at h ⊢
  obtain ⟨e, hrun, hhistory⟩ := commitTurn_ongoing hw' hr' h
  have hagain := runTurn_again hplain hw' hr' hlen hrun clock
  have hgrows := (commits_commitTurn (x := x) hw' hr' len turn).grows
  rw [hhistory] at h hgrows ⊢
  unfold step
  rw [if_neg (by rw [h]; exact Bool.false_ne_true), if_neg]
  · unfold commitTurn
    dsimp only
    rw [hagain]
    exact congrArg (fun events => Commit.mk events [] [] []) (List.append_nil _)
  · intro hempty
    rw [List.isEmpty_iff.mp hempty] at hgrows
    exact hne (List.prefix_nil.mp hgrows)

theorem after_idle (hplain : x.orchestration.Plain) {turns : List Turn} (hne : turns ≠ [])
    (clock : ℕ → ℕ) : x.after (x.run turns) ⟨clock, []⟩ = x.run turns := by
  have hidle : x.step (x.run turns).1 ⟨clock, []⟩ = ⟨(x.run turns).1, [], [], []⟩ := by
    cases hended : ended (x.run turns).1 with
    | true => exact if_pos hended
    | false =>
      obtain ⟨before, last, rfl⟩ := (List.eq_nil_or_concat' turns).resolve_left hne
      have hrun : x.run (before ++ [last]) = x.after (x.run before) last := List.foldl_append
      obtain ⟨later, hlater⟩ := ((progress_run x before).after last).2
      rw [hrun] at hended ⊢
      have hbefore : ended (x.run before).1 = false := by
        rw [← hlater, ended_append, Bool.or_eq_false_iff] at hended
        exact hended.1
      exact step_again hplain (progress_run x before).wellFormed hbefore hended clock
  unfold after
  rw [hidle]
  exact Prod.ext rfl (Prod.ext (List.append_nil _) (List.append_nil _))

/-- **Replay changes nothing.** Where the code takes nothing from a queue, turns without messages
may stand anywhere in a run after its first turn: the history and what is handed to the queues are
the same with them and without them, although each of them starts the code again and reads the whole
history. -/
theorem idle_run (x : Execution) (hplain : x.orchestration.Plain) (turns later : List Turn)
    (hne : turns ≠ []) (clock : ℕ → ℕ) : x.run (turns ++ ⟨clock, []⟩ :: later) =
      x.run (turns ++ later) := by
  have hwith : x.run (turns ++ ⟨clock, []⟩ :: later) =
      later.foldl x.after (x.after (x.run turns) ⟨clock, []⟩) :=
    List.foldl_append
  have hwithout : x.run (turns ++ later) = later.foldl x.after (x.run turns) := List.foldl_append
  rw [hwith, hwithout, after_idle hplain hne]

theorem idle_run_example :
    callOnceExecution.run ([⟨fun _ => 0, []⟩] ++ ⟨fun _ => 5,
      []⟩ :: [⟨fun _ => 9, [.activityCompleted "i" 1 2 "ok"]⟩])
      = callOnceExecution.run ([⟨fun _ => 0, []⟩] ++ [⟨fun _ => 9,
        [.activityCompleted "i" 1 2 "ok"]⟩]) :=
  idle_run callOnceExecution (fun _ => ⟨by decide, fun _ _ _ => trivial⟩) [⟨fun _ => 0,
    []⟩] _ (by decide) _

/-- Code that gives up a wait on a queue, waits on the queue again, and goes on with an activity. -/
def waitAgain : Orchestration where
  State := Unit
  start := fun _ _ => ()
  body := fun _ =>
    .request (.dequeueEvent "q") fun first =>
    .request (.callActivity "a" "x" none none) fun activity =>
    .await [activity] fun _ _ =>
    .drop first <|
    .request (.dequeueEvent "q") fun second =>
    .await [second] fun _ _ =>
    .request (.callActivity "b" "y" none none) fun last =>
    .await [last] fun _ _ => .finish (.ok "done")
  guarded := fun _ _ _ => trivial

-- With a queue this fails: an event that arrives in the turn that waits again is given to the
-- second wait, but when
-- the history is read the first wait still has it, since its cancellation comes at the end of the
-- turn.
example :
    let x : Execution := ⟨waitAgain, "i", 1, "wait-again", "1", "in"⟩
    let turns : List Turn :=
      [⟨fun _ => 0, []⟩, ⟨fun _ => 0, [.activityCompleted "i" 1 3 "ok", .queueMessage "i" "q" "m"]⟩]
    ended (x.run turns).1 = false ∧ ended (x.run (turns ++ [⟨fun _ => 0, []⟩])).1 =
      true := by decide

end Execution

end Sporos.Vendor.Replay

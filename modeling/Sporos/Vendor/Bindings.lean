import Sporos.Vendor.Replay

/-! # Futures and what they are scheduled as

A future that the code drops is cancelled under the id of the event that scheduled it. A poll gives
out new tokens and leaves the bindings alone; a token is bound, when the history is read and when a
new action gets its id, to an event that schedules what the token stands for. -/

namespace Sporos.Vendor.Replay

open Sporos.Lib.Maps

/-- What an event schedules. -/
def schedules (event : Event) : Option ScheduleKind :=
  match event.kind with
  | .activityScheduled _ _ _ _ => some .activity
  | .timerCreated _ => some .timer
  | .queueSubscribed _ => some .queueDequeue
  | _ => none

/-- Something of the kind is scheduled under the id. -/
def ScheduledIn (history : List Event) (kind : ScheduleKind) (id : ℕ) : Prop :=
  ∃ event ∈ history, event.eventId = id ∧ schedules event = some kind

/-- The tokens of the context, with the actions that have been taken out of it. -/
structure Bound (history : List Event) (emitted : List (ℕ × Request)) (ctx : CtxInner) : Prop where
  futures : ∀ row ∈ ctx.futures, row.1 ≤ ctx.nextToken
  emitted : ∀ row ∈ emitted ++ ctx.emittedActions,
    row.1 ≤ ctx.nextToken ∧ get ctx.futures row.1 = row.2.scheduleKind
  bindings : ∀ token id, get ctx.tokenBindings token = some id → token ≤ ctx.nextToken
    ∧ ∀ kind, get ctx.futures token = some kind → ScheduledIn history kind id

variable {history history' : List Event} {emitted : List (ℕ × Request)} {ctx ctx' : CtxInner}
  {kind : ScheduleKind} {event : Event} {token id : ℕ} {σ : Type}

theorem ScheduledIn.mono (h : ScheduledIn history kind id) (hsub : history <+: history') :
    ScheduledIn history' kind id := by
  obtain ⟨event, hmem, hevent⟩ := h
  exact ⟨event, hsub.subset hmem, hevent⟩

namespace Bound

/-- Actions that have been taken out may be forgotten. -/
theorem rest (h : Bound history emitted ctx) : Bound history [] ctx :=
  ⟨h.futures, fun row hmem => h.emitted row (List.mem_append_right _ hmem), h.bindings⟩

theorem mono (h : Bound history emitted ctx) (hsub : history <+: history') :
    Bound history' emitted ctx :=
  ⟨h.futures, h.emitted, fun token id hbound =>
    ⟨(h.bindings token id hbound).1, fun kind hkind =>
      ((h.bindings token id hbound).2 kind hkind).mono hsub⟩⟩

/-! ### Polls -/

theorem get_futures_emitAction (hfutures : ∀ row ∈ ctx.futures, row.1 ≤ ctx.nextToken)
    (action : Request) (token : ℕ) :
    get (ctx.emitAction action).1.futures token
      = if token = ctx.nextToken + 1 then action.scheduleKind else get ctx.futures token := by
  have hnone : get ctx.futures (ctx.nextToken + 1) = none :=
    get_eq_none.mpr fun kind hmem => absurd (hfutures _ hmem) (by simp)
  unfold CtxInner.emitAction
  dsimp only
  rw [get_append]
  by_cases htoken : token = ctx.nextToken + 1
  · rw [if_pos htoken, htoken, hnone, Option.none_or]
    cases action.scheduleKind with
    | none => rfl
    | some kind => exact (get_singleton _ _ _).trans (if_pos rfl)
  · rw [if_neg htoken]
    cases action.scheduleKind with
    | none => exact Option.or_none
    | some kind =>
      refine (congrArg _ ((get_singleton _ _ _).trans (if_neg ?_))).trans Option.or_none
      exact fun heq => htoken heq.symm

theorem emitAction (h : Bound history emitted ctx) (action : Request) :
    Bound history emitted (ctx.emitAction action).1 := by
  have hget := get_futures_emitAction h.futures action
  refine ⟨fun row hmem => ?_, fun row hmem => ?_, fun token id hbound => ?_⟩
  · rcases List.mem_append.mp hmem with hold | hnew
    · exact (h.futures row hold).trans (Nat.le_succ _)
    · obtain ⟨kind, -, rfl⟩ := Option.map_eq_some_iff.mp (Option.mem_toList.mp hnew)
      exact le_rfl
  · rw [hget]
    rcases List.mem_append.mp ((List.append_assoc _ _ _).symm ▸
      hmem : row ∈ (emitted ++ ctx.emittedActions) ++ _)
      with hold | hnew
    · obtain ⟨hle, hkind⟩ := h.emitted row hold
      exact ⟨hle.trans (Nat.le_succ _), (if_neg (by omega)).trans hkind⟩
    · rw [List.mem_singleton.mp hnew]
      exact ⟨le_rfl, if_pos rfl⟩
  · obtain ⟨hle, hscheduled⟩ := h.bindings token id hbound
    refine ⟨hle.trans (Nat.le_succ _), fun kind hkind => hscheduled kind ?_⟩
    rw [hget, if_neg (by omega)] at hkind
    exact hkind

theorem dropFuture (h : Bound history emitted ctx) (token : ℕ) :
    Bound history emitted (ctx.dropFuture token) := by
  unfold CtxInner.dropFuture
  split_ifs
  · exact h
  · exact ⟨h.futures, h.emitted, h.bindings⟩

theorem run (h : Bound history emitted ctx) (code : Code σ) :
    Bound history emitted (code.run ctx).1 := by
  induction code generalizing ctx with
  | finish output => exact h
  | goto state => exact h
  | request action next ih => exact ih _ (h.emitAction action)
  | drop token next ih => exact ih (h.dropFuture token)
  | await tokens next ih => exact h

theorem pollFirst (h : Bound history emitted ctx) {tokens : List ℕ} {i : ℕ}
    {result : CompletionResult} (hfound : ctx.pollFirst tokens = some (i, result, ctx')) :
      Bound history emitted ctx' := by
  induction tokens generalizing i with
  | nil => cases hfound
  | cons token tokens ih =>
    rw [CtxInner.pollFirst] at hfound
    cases hready : ctx.ready token with
    | none =>
      rw [hready] at hfound
      obtain ⟨⟨i', result', ctx₁⟩, hlater, heq⟩ := Option.map_eq_some_iff.mp hfound
      cases heq
      exact ih hlater
    | some result' =>
      rw [hready] at hfound
      cases hfound
      exact ⟨h.futures, h.emitted, h.bindings⟩

section

variable (o : Orchestration)

theorem enter (h : Bound history emitted ctx) (code : Code o.State) :
    Bound history emitted (o.enter ctx code).1 := by
  have hrun := h.run code
  unfold Orchestration.enter
  generalize code.run ctx = stopped at hrun
  obtain ⟨ctx', code'⟩ := stopped
  cases code' with
  | goto state => exact hrun.run (o.body state)
  | _ => exact hrun

theorem pollLoop (h : Bound history emitted ctx) (n : ℕ) (code : Code o.State) :
    Bound history emitted (o.pollLoop n ctx code).1 := by
  induction n generalizing ctx code with
  | zero => cases code <;> exact h
  | succ n ih =>
    cases code with
    | await tokens next =>
      unfold Orchestration.pollLoop
      cases hfound : ctx.pollFirst tokens with
      | none => exact h
      | some found =>
        obtain ⟨i, result, ctx'⟩ := found
        exact ih ((h.pollFirst hfound).enter o (next i result)) _
    | _ => exact h

theorem poll (h : Bound history emitted ctx) (code : Code o.State) :
    Bound history emitted (o.poll ctx code).1 :=
  (h.enter o code).pollLoop o _ _

/-- What is emitted is taken out of the context. -/
theorem pollOrchestrationFuture {ev : Evaluation o.State}
    (h : Bound history ev.emittedActions ev.ctx) :
    Bound history (o.pollOrchestrationFuture ev).emittedActions
      (o.pollOrchestrationFuture ev).ctx := by
  have hpoll := h.poll o ev.fut
  refine ⟨hpoll.futures, fun row hmem => hpoll.emitted row ?_, hpoll.bindings⟩
  rw [← List.append_nil (_ ++ _)]
  exact hmem

theorem settle {ev : Evaluation o.State} (h : Bound history ev.emittedActions ev.ctx) :
    Bound history (o.settle ev).emittedActions (o.settle ev).ctx := by
  unfold Orchestration.settle
  split_ifs
  · exact h.pollOrchestrationFuture o
  · exact h

end

/-! ### Bindings -/

/-- A token is bound to an event that schedules what it stands for. -/
theorem bindToken (h : Bound history emitted ctx) (htoken : token ≤ ctx.nextToken)
    (hscheduled : ∀ kind, get ctx.futures token = some kind → ScheduledIn history kind id) :
    Bound history emitted (ctx.bindToken token id) := by
  refine ⟨h.futures, h.emitted, fun token' id' hbound => ?_⟩
  rw [CtxInner.bindToken, get_put] at hbound
  split_ifs at hbound with heq
  · subst heq
    obtain rfl := Option.some_inj.mp hbound
    exact ⟨htoken, hscheduled⟩
  · exact h.bindings token' id' hbound

theorem schedules_of_matches {action : Request} (h : action.matchesEventKind event.kind = true) :
    schedules event = action.scheduleKind := by
  obtain ⟨eventId, sourceEventId, kind⟩ := event
  cases action <;> cases kind <;> first | rfl | cases h

theorem matchAndBindSchedule {ev ev' : Evaluation σ} (h : Bound history ev.emittedActions ev.ctx)
    (hmem : event ∈ history) {kind : ScheduleKind}
    (hok : ev.matchAndBindSchedule event kind = .ok ev') :
    Bound history ev'.emittedActions ev'.ctx := by
  unfold Evaluation.matchAndBindSchedule at hok
  split at hok
  · cases hok
  rename_i token action rest hemitted
  split_ifs at hok with hmatches
  cases hok
  rw [hemitted] at h
  obtain ⟨htoken, hkind⟩ := h.emitted (token, action) List.mem_cons_self
  have hrest : Bound history rest ev.ctx :=
    ⟨h.futures, fun row hrow => h.emitted row (List.mem_cons_of_mem _ hrow), h.bindings⟩
  refine hrest.bindToken htoken fun kind' hkind' => ⟨event, hmem, rfl, ?_⟩
  rw [schedules_of_matches hmatches, ← hkind, hkind']

/-! ### The history -/

theorem deliver {ev ev' : Evaluation σ} (h : Bound history ev.emittedActions ev.ctx)
    {sourceEventId : Option ℕ} {result : CompletionResult}
    (hok : ev.deliver sourceEventId result = .ok ev') :
    Bound history ev'.emittedActions ev'.ctx := by
  unfold Evaluation.deliver at hok
  cases sourceEventId with
  | none =>
    cases hok
    exact h
  | some id =>
    dsimp only at hok
    split_ifs at hok
    cases hok
    unfold CtxInner.deliverResult
    dsimp only
    split
    · exact ⟨h.futures, h.emitted, h.bindings⟩
    · exact h

theorem takeAction {ev ev' : Evaluation σ} (h : Bound history ev.emittedActions ev.ctx)
    {message : String} (hok : ev.takeAction message = .ok ev') :
      Bound history ev'.emittedActions ev'.ctx := by
  unfold Evaluation.takeAction at hok
  split at hok
  · cases hok
    exact h
  · cases hok

theorem applyHistoryEvent {ev ev' : Evaluation σ} (h : Bound history ev.emittedActions ev.ctx)
    (hmem : event ∈ history) (hok : ev.applyHistoryEvent event = .ok ev') :
    Bound history ev'.emittedActions ev'.ctx := by
  unfold Evaluation.applyHistoryEvent at hok
  split at hok
  case h_1 => exact h.matchAndBindSchedule hmem hok
  case h_2 => exact h.matchAndBindSchedule hmem hok
  case h_3 name hkind =>
    cases hmatch : ev.matchAndBindSchedule event .queueDequeue with
    | error details =>
      rw [hmatch] at hok
      cases hok
    | ok ev₁ =>
      rw [hmatch] at hok
      cases hok
      have hbound := h.matchAndBindSchedule hmem hmatch
      exact ⟨hbound.futures, hbound.emitted, hbound.bindings⟩
  case h_4 result hkind =>
    cases hdeliver : ev.deliver event.sourceEventId (.activityOk result) with
    | error details =>
      rw [hdeliver] at hok
      cases hok
    | ok ev₁ =>
      rw [hdeliver] at hok
      have hbound := h.deliver hdeliver
      cases hsource : event.sourceEventId with
      | none =>
        rw [hsource] at hok
        cases hok
        exact hbound
      | some id =>
        rw [hsource] at hok
        simp only [Except.bind, bind] at hok
        split_ifs at hok
        cases hok
        exact hbound
  case h_5 => exact h.deliver hok
  case h_6 => exact h.deliver hok
  case h_7 =>
    split at hok <;> cases hok
    · exact ⟨h.futures, h.emitted, h.bindings⟩
    · exact h
  case h_8 =>
    cases hok
    exact ⟨h.futures, h.emitted, h.bindings⟩
  case h_9 => exact h.takeAction hok
  case h_10 => exact h.takeAction hok
  case h_11 => exact h.takeAction hok
  case h_12 => exact h.takeAction hok
  all_goals
    cases hok
    exact h

theorem readHistory (o : Orchestration) {events : List Event} {ev ev' : Evaluation o.State}
    (h : Bound history ev.emittedActions ev.ctx) (hsub : events ⊆ history)
    (hok : o.readHistory events ev = .ok ev') : Bound history ev'.emittedActions ev'.ctx := by
  induction events generalizing ev with
  | nil =>
    cases hok
    exact h
  | cons event events ih =>
    have hsettled := h.settle o
    unfold Orchestration.readHistory at hok
    split_ifs at hok
    · cases hok
      exact hsettled
    · cases happly : (o.settle ev).applyHistoryEvent event with
      | error details =>
        rw [happly] at hok
        cases hok
      | ok ev₁ =>
        rw [happly] at hok
        exact ih (hsettled.applyHistoryEvent (hsub List.mem_cons_self) happly)
          (fun _ hmem => hsub (List.mem_cons_of_mem _ hmem)) hok

theorem init (history : List Event) (state : σ) :
    Bound history (Evaluation.init state).emittedActions (Evaluation.init state).ctx :=
  ⟨fun _ hmem => absurd hmem List.not_mem_nil, fun _ hmem => absurd hmem List.not_mem_nil,
    fun _ _ hbound => absurd hbound (Option.some_ne_none _).symm⟩

theorem cancelDropped (o : Orchestration) {ev : Evaluation o.State}
    (h : Bound history ev.emittedActions ev.ctx) :
    Bound history (o.cancelDropped ev).emittedActions (o.cancelDropped ev).ctx := by
  unfold Orchestration.cancelDropped
  dsimp only
  generalize ev.ctx.cancelledIds .queueDequeue = ids
  generalize ev.ctx = ctx at h
  induction ids generalizing ctx with
  | nil => exact h
  | cons id ids ih => exact ih _ ⟨h.futures, h.emitted, h.bindings⟩

/-- What the code has dropped is something of the kind that is scheduled. -/
theorem cancelledIds (h : Bound history emitted ctx) (hid : id ∈ ctx.cancelledIds kind) :
    ScheduledIn history kind id := by
  obtain ⟨token, -, hfound⟩ := List.mem_filterMap.mp hid
  split_ifs at hfound with hkind
  exact (h.bindings token id hfound).2 kind hkind

/-- An action gets its id, and its event is added to the history. -/
theorem convertEmittedAction {row : ℕ × Request} {e : ReplayEngine}
    (h : Bound e.finalHistory (row :: emitted) ctx) (clock : ℕ → ℕ) :
    Bound (Replay.convertEmittedAction clock (ctx, e) row).2.finalHistory emitted
      (Replay.convertEmittedAction clock (ctx, e) row).1 := by
  obtain ⟨token, request⟩ := row
  obtain ⟨htoken, hkind⟩ := h.emitted (token, request) List.mem_cons_self
  have hgrows : e.finalHistory <+: (Replay.convertEmittedAction clock (ctx, e) (token,
      request)).2.finalHistory := by
    rw [ReplayEngine.finalHistory, ReplayEngine.finalHistory, Replay.convertEmittedAction]
    exact ⟨_, List.append_assoc _ _ _⟩
  have hrest : Bound (Replay.convertEmittedAction clock (ctx, e) (token,
      request)).2.finalHistory emitted ctx :=
    Bound.mono ⟨h.futures, fun row hrow => h.emitted row (List.mem_cons_of_mem _ hrow),
      h.bindings⟩ hgrows
  have hscheduled : ∀ kind, get ctx.futures token = some kind →
      ScheduledIn (Replay.convertEmittedAction clock (ctx, e) (token,
        request)).2.finalHistory kind e.nextEventId := by
    intro kind hfuture
    rw [hkind] at hfuture
    cases request with
    | continueAsNew input version => cases hfuture
    | _ =>
      cases hfuture
      exact ⟨_, List.mem_append_right _ (List.mem_append_right _ List.mem_cons_self), rfl, rfl⟩
  have hbound := hrest.bindToken htoken hscheduled
  cases request with
  | dequeueEvent name => exact ⟨hbound.futures, hbound.emitted, hbound.bindings⟩
  | _ => exact hbound

theorem convertEmittedActions {e : ReplayEngine} (h : Bound e.finalHistory emitted ctx)
    (clock : ℕ → ℕ) :
    Bound (Replay.convertEmittedActions clock emitted (ctx, e)).2.finalHistory []
      (Replay.convertEmittedActions clock emitted (ctx, e)).1 := by
  unfold Replay.convertEmittedActions
  induction emitted generalizing ctx e with
  | nil => exact h
  | cons row emitted ih => exact ih (h.convertEmittedAction clock)

theorem convert (o : Orchestration) {ev : Evaluation o.State} {e : ReplayEngine}
    (h : Bound e.finalHistory ev.emittedActions ev.ctx) (clock : ℕ → ℕ) :
    Bound (o.convert clock (ev, e)).2.finalHistory (o.convert clock (ev, e)).1.emittedActions
      (o.convert clock (ev, e)).1.ctx := h.convertEmittedActions clock

theorem runQuiescenceLoop (o : Orchestration) {ev : Evaluation o.State} {e : ReplayEngine}
    (h : Bound e.finalHistory ev.emittedActions ev.ctx) (clock : ℕ → ℕ) (n : ℕ)
    {state : Evaluation o.State × ReplayEngine}
    (hok : o.runQuiescenceLoop clock n (ev, e) = .ok state) :
    Bound state.2.finalHistory state.1.emittedActions state.1.ctx := by
  induction n generalizing ev e with
  | zero => cases hok
  | succ n ih =>
    have hnext := (h.pollOrchestrationFuture o).convert o clock
    unfold Orchestration.runQuiescenceLoop at hok
    dsimp only at hok
    split_ifs at hok
    · cases hok
      exact h
    · cases hok
      exact hnext
    · exact ih hnext hok

end Bound

end Sporos.Vendor.Replay

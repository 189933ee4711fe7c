import Sporos.Vendor.Polls

/-! # Code that takes nothing from a queue

Where the code makes no request to a queue, what is ready depends on the results alone: to bind a
token makes nothing ready, so that code that rests still rests when its requests have got their ids.
-/

namespace Sporos.Vendor.Replay

open Sporos.Lib.Maps

/-- The code takes nothing from a queue. -/
def Code.Plain {σ : Type} : Code σ → Prop
  | .finish _ | .goto _ => True
  | .request action next => action.scheduleKind ≠ some .queueDequeue ∧ ∀ token, (next token).Plain
  | .drop _ next => next.Plain
  | .await _ next => ∀ i result, (next i result).Plain

/-- Every state of the orchestration runs plain code. -/
def Orchestration.Plain (o : Orchestration) : Prop := ∀ state, (o.body state).Plain

/-- No future waits on a queue, and no subscription has been asked for. -/
structure NoQueue (emitted : List (ℕ × Request)) (ctx : CtxInner) : Prop where
  futures : ∀ row ∈ ctx.futures, row.2 ≠ .queueDequeue
  emitted : ∀ row ∈ emitted ++ ctx.emittedActions, row.2.scheduleKind ≠ some .queueDequeue

variable {emitted : List (ℕ × Request)} {ctx ctx' : CtxInner} {token : ℕ} {event : Event} {σ : Type}

/-! ### Readiness -/

theorem NoQueue.get_futures (h : NoQueue emitted ctx) (token : ℕ) :
    get ctx.futures token ≠ some .queueDequeue :=
  fun hget => h.futures _ (get_eq_some_mem hget) rfl

theorem NoQueue.cancelledIds (h : NoQueue emitted ctx) : ctx.cancelledIds .queueDequeue = [] :=
  List.filterMap_eq_nil_iff.mpr fun token _ => if_neg (h.get_futures token)

theorem ready_congr (h : NoQueue emitted ctx) (hfutures : ctx'.futures = ctx.futures)
    (hcompleted : ctx'.completed = ctx.completed)
    (hresults : ctx'.completionResults = ctx.completionResults) (token : ℕ) :
      ctx'.ready token = ctx.ready token := by
  have hqueue := h.get_futures token
  unfold CtxInner.ready
  rw [hfutures, hcompleted, hresults]
  cases hkind : get ctx.futures token with
  | none => rfl
  | some kind =>
    cases kind with
    | queueDequeue => exact absurd hkind hqueue
    | _ => rfl

theorem pollFirst_eq_none {tokens : List ℕ} :
    ctx.pollFirst tokens = none ↔ ∀ token ∈ tokens, ctx.ready token = none := by
  induction tokens with
  | nil => exact ⟨fun _ _ h => absurd h List.not_mem_nil, fun _ => rfl⟩
  | cons token tokens ih =>
    rw [List.forall_mem_cons, ← ih, CtxInner.pollFirst]
    cases ctx.ready token with
    | none =>
      dsimp only
      rw [Option.map_eq_none_iff]
      exact ⟨fun h => ⟨rfl, h⟩, fun h => h.2⟩
    | some result => exact ⟨fun h => absurd h (Option.some_ne_none _), fun h =>
      absurd h.1 (Option.some_ne_none _)⟩

theorem Rests.congr (h : NoQueue emitted ctx) (hfutures : ctx'.futures = ctx.futures)
    (hcompleted : ctx'.completed = ctx.completed)
    (hresults : ctx'.completionResults = ctx.completionResults) {code : Code σ}
    (hrests : Rests ctx code) : Rests ctx' code := by
  cases code with
  | finish output => trivial
  | await tokens next =>
    refine pollFirst_eq_none.mpr fun token hmem => ?_
    rw [ready_congr h hfutures hcompleted hresults]
    exact pollFirst_eq_none.mp hrests token hmem
  | _ => exact hrests.elim

/-! ### Polls -/

theorem NoQueue.run (h : NoQueue emitted ctx) {code : Code σ} (hcode : code.Plain) :
    NoQueue emitted (code.run ctx).1 ∧ (code.run ctx).2.Plain := by
  induction code generalizing ctx with
  | finish output => exact ⟨h, hcode⟩
  | goto state => exact ⟨h, hcode⟩
  | request action next ih =>
    refine ih _ ⟨fun row hmem => ?_, fun row hmem => ?_⟩ (hcode.2 _)
    · rcases List.mem_append.mp hmem with hold | hnew
      · exact h.futures row hold
      · obtain ⟨kind, hkind, rfl⟩ := Option.map_eq_some_iff.mp (Option.mem_toList.mp hnew)
        exact fun heq => hcode.1 (hkind.trans (congrArg some heq))
    · rcases List.mem_append.mp ((List.append_assoc _ _ _).symm ▸
        hmem : row ∈ (emitted ++ ctx.emittedActions) ++ _)
        with hold | hnew
      · exact h.emitted row hold
      · rw [List.mem_singleton.mp hnew]
        exact hcode.1
  | drop token next ih =>
    refine ih ?_ hcode
    unfold CtxInner.dropFuture
    split_ifs
    · exact h
    · exact ⟨h.futures, h.emitted⟩
  | await tokens next ih => exact ⟨h, hcode⟩

section

variable {o : Orchestration}

theorem NoQueue.enter (ho : o.Plain) (h : NoQueue emitted ctx) {code : Code o.State}
    (hcode : code.Plain) : NoQueue emitted (o.enter ctx code).1 ∧ (o.enter ctx code).2.Plain := by
  have hrun := h.run hcode
  unfold Orchestration.enter
  generalize code.run ctx = stopped at hrun
  obtain ⟨ctx', code'⟩ := stopped
  cases code' with
  | goto state => exact hrun.1.run (ho state)
  | _ => exact hrun

theorem NoQueue.pollLoop (ho : o.Plain) (h : NoQueue emitted ctx) (n : ℕ) {code : Code o.State}
    (hcode : code.Plain) :
    NoQueue emitted (o.pollLoop n ctx code).1 ∧ (o.pollLoop n ctx code).2.Plain := by
  induction n generalizing ctx code with
  | zero => cases code <;> exact ⟨h, hcode⟩
  | succ n ih =>
    cases code with
    | await tokens next =>
      unfold Orchestration.pollLoop
      cases hfound : ctx.pollFirst tokens with
      | none => exact ⟨h, hcode⟩
      | some found =>
        obtain ⟨i, result, ctx'⟩ := found
        obtain ⟨token, -, rfl⟩ := CtxInner.pollFirst_eq_some hfound
        have htaken : NoQueue emitted (ctx.taken token) := ⟨h.futures, h.emitted⟩
        have hentered := NoQueue.enter ho htaken (hcode i result)
        exact ih hentered.1 hentered.2
    | _ => exact ⟨h, hcode⟩

theorem NoQueue.poll (ho : o.Plain) (h : NoQueue emitted ctx) {code : Code o.State}
    (hcode : code.Plain) : NoQueue emitted (o.poll ctx code).1 ∧ (o.poll ctx code).2.Plain :=
  let hentered := NoQueue.enter ho h hcode
  NoQueue.pollLoop ho hentered.1 _ hentered.2

end

/-! ### Evaluations -/

/-- What holds of an evaluation all the time: code that has been polled rests, and has an output if
it has returned. -/
structure Evaluation.Calm (ev : Evaluation σ) : Prop where
  noQueue : NoQueue ev.emittedActions ev.ctx
  plain : ev.fut.Plain
  taken : ev.ctx.emittedActions = []
  rests : ev.mustPoll = false → Rests ev.ctx ev.fut
  output : ev.mustPoll = false → ∀ out, ev.fut = .finish out → ev.outputOpt.isSome = true

namespace Evaluation.Calm

theorem matchAndBindSchedule {ev ev' : Evaluation σ} (h : ev.Calm) {kind : ScheduleKind}
    (hok : ev.matchAndBindSchedule event kind = .ok ev') : ev'.Calm := by
  unfold Evaluation.matchAndBindSchedule at hok
  split at hok
  · cases hok
  rename_i token action rest hemitted
  split_ifs at hok
  cases hok
  refine ⟨⟨h.noQueue.futures, fun row hmem => h.noQueue.emitted row ?_⟩, h.plain, h.taken,
    fun hpoll => ?_, h.output⟩
  · rw [hemitted]
    exact List.mem_cons_of_mem _ hmem
  · refine (h.rests hpoll).congr h.noQueue ?_ ?_ ?_ <;> rfl

theorem deliver {ev ev' : Evaluation σ} (h : ev.Calm) {sourceEventId : Option ℕ}
    {result : CompletionResult} (hok : ev.deliver sourceEventId result = .ok ev') : ev'.Calm := by
  unfold Evaluation.deliver at hok
  cases sourceEventId with
  | none =>
    cases hok
    exact h
  | some id =>
    dsimp only at hok
    split_ifs at hok
    cases hok
    unfold CtxInner.deliverResult
    split
    · exact ⟨⟨h.noQueue.futures, h.noQueue.emitted⟩, h.plain, h.taken, fun hp =>
        Bool.noConfusion hp,
        fun hp => Bool.noConfusion hp⟩
    · exact ⟨h.noQueue, h.plain, h.taken, fun hp => Bool.noConfusion hp,
        fun hp => Bool.noConfusion hp⟩

theorem takeAction {ev ev' : Evaluation σ} (h : ev.Calm) {message : String}
    (hok : ev.takeAction message = .ok ev') : ev'.Calm := by
  unfold Evaluation.takeAction at hok
  split at hok
  · cases hok
    exact h
  · cases hok

theorem applyHistoryEvent {ev ev' : Evaluation σ} (h : ev.Calm)
    (hok : ev.applyHistoryEvent event = .ok ev') : ev'.Calm := by
  unfold Evaluation.applyHistoryEvent at hok
  split at hok
  case h_1 => exact h.matchAndBindSchedule hok
  case h_2 => exact h.matchAndBindSchedule hok
  case h_3 name hkind =>
    cases hmatch : ev.matchAndBindSchedule event .queueDequeue with
    | error details =>
      rw [hmatch] at hok
      cases hok
    | ok ev₁ =>
      rw [hmatch] at hok
      cases hok
      have hcalm := h.matchAndBindSchedule hmatch
      exact ⟨⟨hcalm.noQueue.futures, hcalm.noQueue.emitted⟩, hcalm.plain, hcalm.taken,
        fun hp => Bool.noConfusion hp, fun hp => Bool.noConfusion hp⟩
  case h_4 result hkind =>
    cases hdeliver : ev.deliver event.sourceEventId (.activityOk result) with
    | error details =>
      rw [hdeliver] at hok
      cases hok
    | ok ev₁ =>
      rw [hdeliver] at hok
      have hcalm := h.deliver hdeliver
      cases hsource : event.sourceEventId with
      | none =>
        rw [hsource] at hok
        cases hok
        exact hcalm
      | some id =>
        rw [hsource] at hok
        simp only [Except.bind, bind] at hok
        split_ifs at hok
        cases hok
        exact hcalm
  case h_5 => exact h.deliver hok
  case h_6 => exact h.deliver hok
  case h_7 =>
    split at hok <;> cases hok
    · refine ⟨⟨h.noQueue.futures, h.noQueue.emitted⟩, h.plain, h.taken, fun hp => ?_, h.output⟩
      refine (h.rests hp).congr h.noQueue ?_ ?_ ?_ <;> rfl
    · exact h
  case h_8 =>
    cases hok
    exact ⟨⟨h.noQueue.futures, h.noQueue.emitted⟩, h.plain, h.taken, fun hp => Bool.noConfusion hp,
      fun hp => Bool.noConfusion hp⟩
  case h_9 => exact h.takeAction hok
  case h_10 => exact h.takeAction hok
  case h_11 => exact h.takeAction hok
  case h_12 => exact h.takeAction hok
  all_goals
    cases hok
    exact h

section

variable {o : Orchestration}

theorem settle (ho : o.Plain) {ev : Evaluation o.State} (h : ev.Calm) : (o.settle ev).Calm := by
  unfold Orchestration.settle
  split_ifs
  · obtain ⟨hnoQueue, hplain⟩ := NoQueue.poll ho h.noQueue h.plain
    refine ⟨⟨hnoQueue.futures, fun row hmem => hnoQueue.emitted row ?_⟩, hplain, rfl, fun _ => ?_,
      fun _ out hout => ?_⟩
    · rw [← List.append_nil (_ ++ _)]
      exact hmem
    · refine (o.poll_rests ev.ctx ev.fut).congr hnoQueue ?_ ?_ ?_ <;> rfl
    · dsimp only [Orchestration.pollOrchestrationFuture] at hout ⊢
      rw [hout]
      rfl
  · exact h

theorem readHistory (ho : o.Plain) {events : List Event} {ev ev' : Evaluation o.State} (h : ev.Calm)
    (hok : o.readHistory events ev = .ok ev') : ev'.Calm := by
  induction events generalizing ev with
  | nil =>
    cases hok
    exact h
  | cons event events ih =>
    have hsettled := h.settle ho
    unfold Orchestration.readHistory at hok
    split_ifs at hok
    · cases hok
      exact hsettled
    · cases happly : (o.settle ev).applyHistoryEvent event with
      | error details =>
        rw [happly] at hok
        cases hok
      | ok ev₁ =>
        rw [happly] at hok
        exact ih (hsettled.applyHistoryEvent happly) hok

theorem init (state : σ) : (Evaluation.init state).Calm :=
  ⟨⟨fun _ hmem => absurd hmem List.not_mem_nil, fun _ hmem =>
    absurd hmem List.not_mem_nil⟩, trivial, rfl,
    fun hp => Bool.noConfusion hp, fun hp => Bool.noConfusion hp⟩

end

end Evaluation.Calm

end Sporos.Vendor.Replay

import Sporos.Service.Outbox
import Sporos.Service.TaskControl

/-! # Dispatch and cancellation

The outbox dispatchers, the engine, and the operator's requests, interleaved in any way. A
dispatcher holds the rows that it has claimed and handles each of them in three steps: the start,
the inspection after a failed start, and the write of the outcome. A reconcile step reads the status
of the target of a cancellation and later makes the task terminal.

The order in which one dispatcher handles its rows, and who runs which reconcile step, are left
open. -/

namespace Sporos.Service.Cancellation

open Sporos.Service.Tables
open Sporos.Service.Ingress
open Sporos.Service.TaskControl
open Sporos.Service.Duroxide
open Sporos.Service.Outbox
open Sporos.Lib.Table

/-! ### The system -/

/-- Where a dispatcher is with a row that it has claimed. -/
inductive Phase where
  | claimed
  | started
  | failed (retryable : Bool)
  | inspected (retryable : Bool) (existing : RootOrchestrationStart)
  deriving DecidableEq, Repr

/-- A row as it was claimed, with the lease of the round. -/
structure Claim where
  token : Id
  start : OutboxRow
  phase : Phase
  deriving DecidableEq, Repr

/-- What a reconcile step has seen of its target. -/
structure Observation where
  taskId : Id
  targetInstance : String
  status : OrchestrationStatus
  deriving DecidableEq, Repr

/-- The tables of the service, the engine, the rounds of the outbox, and the observations of the
workflows. -/
structure Sys where
  db : Db
  engine : Engine
  claims : List Claim
  observations : List Observation
  deriving DecidableEq, Repr

/-- Nothing has happened yet. -/
def Sys.init : Sys := ⟨Db.empty, [], [], []⟩

/-- The steps of the service and of its engine. -/
inductive Step where
  | accept (t : NewTask)
  | cancel (taskId : Id) (now : ℤ)
  | retry (taskId : Id) (now : ℤ)
  | claim (now leaseUntil : ℤ) (token : Id) (batchSize : ℕ)
  | deliver (token : Id) (id : ℕ) (delivery : Delivery)
  | inspect (token : Id) (id : ℕ)
  | mark (token : Id) (id : ℕ) (now : ℤ)
  | abort (token : Id)
  | progress (instanceId : String) (status : OrchestrationStatus)
  | observe (taskId : Id) (targetInstance : String)
  | record (taskId : Id) (targetInstance : String) (status : OrchestrationStatus) (now : ℤ)
  deriving DecidableEq, Repr

/-- The state and the reason that `reconcile` records. While the target is running it only asks the
engine to cancel it. -/
def reconciled : OrchestrationStatus → Option (String × String)
  | .running => none
  | .completed _ => some ("completed", "cancellation_raced_completion")
  | .failed details =>
    if details.isCancelled then some ("cancelled", "cancelled_by_operator")
    else some ("failed", "orchestration_failed")
  | .notFound => some ("failed", "orchestration_missing")

/-- The claim of a row by a round. -/
def Claim.isOf (token : Id) (id : ℕ) (claim : Claim) : Bool :=
  claim.token = token ∧ claim.start.id = id

/-- The start call of a claimed row. -/
def Claim.deliver (engine : Engine) (claim : Claim) (delivery : Delivery) : Engine × Phase :=
  match startOrchestration engine claim.start.instanceId claim.start.orchestrationName
    claim.start.orchestrationVersion claim.start.inputJson delivery with
  | (engine, none) => (engine, .started)
  | (engine, some retryable) => (engine, .failed retryable)

/-- The inspection of a claimed row after a failed start. -/
def Claim.inspect (engine : Engine) (claim : Claim) (retryable : Bool) : Phase :=
  .inspected retryable (inspectRootOrchestrationStart engine claim.start.instanceId
    claim.start.orchestrationName claim.start.orchestrationVersion claim.start.inputJson)

/-- The write of the outcome of a claimed row, if there is one. -/
def Claim.mark (db : Db) (claim : Claim) (now : ℤ) : Option (Except DispatchError Db) :=
  match claim.phase with
  | .started => some (markDispatched db claim.start.id claim.token now)
  | .inspected retryable existing =>
    some (markFailed db claim.start claim.token now retryable existing)
  | _ => none

section

variable (codec : ControlCodec)

/-- One step. A step that does not apply changes nothing; an error ends the round of a dispatcher,
which then drops its claims. -/
def Step.apply (sys : Sys) : Step → Sys
  | .accept t =>
    match acceptTask codec.jsonValid sys.db t with
    | .error _ => sys
    | .ok (db, _) => { sys with db }
  | .cancel taskId now =>
    match requestCancel codec sys.db taskId now with
    | .error _ => sys
    | .ok (db, _) => { sys with db }
  | .retry taskId now =>
    match TaskControl.retry codec sys.db taskId now with
    | .error _ => sys
    | .ok (db, _) => { sys with db }
  | .claim now leaseUntil token batchSize =>
    let (db, rows) := Outbox.claim sys.db now leaseUntil token batchSize
    { sys with db, claims := sys.claims ++ rows.map fun row => ⟨token, row, .claimed⟩ }
  | .deliver token id delivery =>
    match sys.claims.find? (Claim.isOf token id) with
    | none => sys
    | some c =>
      if c.phase = .claimed then
        let (engine, phase) := c.deliver sys.engine delivery
        { sys with
          engine
          claims := { c with phase } :: sys.claims.filter (fun c => !c.isOf token id) }
      else sys
  | .inspect token id =>
    match sys.claims.find? (Claim.isOf token id) with
    | none => sys
    | some c =>
      match c.phase with
      | .failed retryable =>
        { sys with
          claims := { c with phase := c.inspect sys.engine retryable }
            :: sys.claims.filter (fun c => !c.isOf token id) }
      | _ => sys
  | .mark token id now =>
    match (sys.claims.find? (Claim.isOf token id)).bind (·.mark sys.db now) with
    | none => sys
    | some (.ok db) => { sys with db, claims := sys.claims.filter (fun c => !c.isOf token id) }
    | some (.error _) => { sys with claims := sys.claims.filter (fun c => c.token ≠ token) }
  | .abort token => { sys with claims := sys.claims.filter (fun c => c.token ≠ token) }
  | .progress instanceId status =>
    { sys with engine := Duroxide.progress sys.engine instanceId status }
  | .observe taskId targetInstance =>
    { sys with observations :=
        ⟨taskId, targetInstance, getOrchestrationStatus sys.engine targetInstance⟩
          :: sys.observations }
  | .record taskId targetInstance status now =>
    if ⟨taskId, targetInstance, status⟩ ∈ sys.observations then
      match reconciled status with
      | none => sys
      | some (state, reason) =>
        match recordTerminal codec sys.db taskId state reason now with
        | .error _ => sys
        | .ok db => { sys with db }
    else sys

/-- The system after some steps. -/
def runSteps (sys : Sys) (steps : List Step) : Sys := steps.foldl (Step.apply codec) sys

/-- The step makes a task terminal, by `record_terminal`, while its current instance is the one
given. -/
def Ends (sys : Sys) (step : Step) (instanceId : String) : Prop :=
  ∃ taskId targetInstance status now row row',
    step = .record taskId targetInstance status now ∧ sys.db.task taskId = some row
      ∧ row.terminalAt = none ∧ row.instanceId = instanceId
      ∧ (step.apply codec sys).db.task taskId = some row' ∧ row'.terminalAt ≠ none

/-- The step is a delivery that starts the instance. -/
def Starts (sys : Sys) (step : Step) (instanceId : String) : Prop :=
  (∃ token id delivery, step = .deliver token id delivery)
    ∧ ¬ Reserved sys.engine instanceId ∧ Reserved (step.apply codec sys).engine instanceId

end

/-- The start request of the instance has been settled: the engine has the instance; or the row is
dispatched or failed for good, and no dispatcher still has to deliver it. -/
def Settled (sys : Sys) (instanceId : String) : Prop :=
  Reserved sys.engine instanceId
    ∨ ((∃ row ∈ sys.db.outbox, row.instanceId = instanceId ∧ SettledRow row)
      ∧ ∀ claim ∈ sys.claims, claim.start.instanceId = instanceId → claim.phase ≠ .claimed)

/-! ### One step -/

section

variable {codec : ControlCodec} {sys : Sys}

theorem keepsOutbox_acceptTask {db db' : Db} {t : NewTask} {accepted : AcceptedTask}
    (h : acceptTask codec.jsonValid db t = .ok (db', accepted)) : KeepsOutbox db db' := by
  rcases (acceptTask_eq_ok h).result with ⟨-, rfl⟩ | ⟨-, -, hfree, rfl⟩
  · exact .of_eq rfl
  · exact .append hfree rfl

theorem keepsOutbox_write {db db' : Db} {taskId : Id} {f : TaskRow → TaskRow} {start : OutboxRow}
    {event : EventRow} (h : db.write codec.jsonValid taskId f start event = some db') :
    KeepsOutbox db db' := by
  obtain ⟨-, hfree, -, rfl⟩ := write_eq_some h
  exact .append hfree rfl

theorem keepsOutbox_mark {db db' : Db} {c : Claim} {now : ℤ}
    (h : c.mark db now = some (.ok db')) : KeepsOutbox db db' := by
  unfold Claim.mark at h
  split at h
  · exact keepsOutbox_markDispatched (Option.some_inj.mp h)
  · exact keepsOutbox_markFailed (Option.some_inj.mp h)
  · cases h

/-- Every step keeps the outbox. -/
theorem apply_keepsOutbox (sys : Sys) (step : Step) :
    KeepsOutbox sys.db (step.apply codec sys).db := by
  cases step with
  | accept t =>
    simp only [Step.apply]
    split
    · exact .refl _
    · rename_i h
      exact keepsOutbox_acceptTask h
  | cancel taskId now =>
    simp only [Step.apply]
    split
    · exact .refl _
    · rename_i h
      obtain ⟨row, -, -, ⟨-, rfl⟩ | ⟨-, hwrite⟩⟩ := requestCancel_eq_ok h
      · exact .refl _
      · exact keepsOutbox_write hwrite
  | retry taskId now =>
    simp only [Step.apply]
    split
    · exact .refl _
    · rename_i h
      obtain ⟨row, start, -, -, -, -, -, hwrite⟩ := retry_eq_ok h
      exact keepsOutbox_write hwrite
  | claim now leaseUntil token batchSize =>
    exact keepsOutbox_claim sys.db now leaseUntil token batchSize
  | deliver token id delivery =>
    simp only [Step.apply]
    split
    · exact .refl _
    · split_ifs <;> exact .refl _
  | inspect token id =>
    simp only [Step.apply]
    split
    · exact .refl _
    · split <;> exact .refl _
  | mark token id now =>
    simp only [Step.apply]
    split
    · exact .refl _
    · rename_i db' h
      obtain ⟨c, -, hmark⟩ := Option.bind_eq_some_iff.mp h
      exact keepsOutbox_mark hmark
    · exact .refl _
  | abort token => exact .refl _
  | progress instanceId status => exact .refl _
  | observe taskId targetInstance => exact .refl _
  | record taskId targetInstance status now =>
    simp only [Step.apply]
    split_ifs
    · split
      · exact .refl _
      · split
        · exact .refl _
        · rename_i h
          rcases recordTerminal_eq_ok h with rfl | ⟨row, -, -, -, -, rfl⟩
          · exact .refl _
          · exact .of_eq rfl
    · exact .refl _

theorem deliver_engine (engine : Engine) (c : Claim) (delivery : Delivery) :
    (c.deliver engine delivery).1 = (startOrchestration engine c.start.instanceId
      c.start.orchestrationName c.start.orchestrationVersion c.start.inputJson delivery).1 := by
  unfold Claim.deliver
  split
  · rename_i h; rw [h]
  · rename_i h; rw [h]

theorem deliver_phase (engine : Engine) (c : Claim) (delivery : Delivery) :
    (c.deliver engine delivery).2 ≠ .claimed := by
  unfold Claim.deliver
  split <;> simp

/-- The engine keeps every instance. -/
theorem apply_reserved (step : Step) {instanceId : String} (h : Reserved sys.engine instanceId) :
    Reserved (step.apply codec sys).engine instanceId := by
  cases step with
  | deliver token id delivery =>
    simp only [Step.apply]
    split
    · exact h
    · rename_i c hc
      split_ifs
      · simp only [deliver_engine]
        exact reserved_startOrchestration h
      · exact h
  | progress i status => exact reserved_progress.mpr h
  | accept t => simp only [Step.apply]; split <;> exact h
  | cancel taskId now => simp only [Step.apply]; split <;> exact h
  | retry taskId now => simp only [Step.apply]; split <;> exact h
  | claim now leaseUntil token batchSize => exact h
  | inspect token id =>
    simp only [Step.apply]
    split
    · exact h
    · split <;> exact h
  | mark token id now => simp only [Step.apply]; split <;> exact h
  | abort token => exact h
  | observe taskId targetInstance => exact h
  | record taskId targetInstance status now =>
    simp only [Step.apply]
    split_ifs
    · split
      · exact h
      · split <;> exact h
    · exact h

/-- A row that is to be delivered was to be delivered before, or has just been claimed. -/
theorem claimed_of_apply {step : Step} {c : Claim} (hc : c ∈ (step.apply codec sys).claims)
    (hphase : c.phase = .claimed) :
    c ∈ sys.claims ∨ (c.start ∈ sys.db.outbox ∧ ¬ SettledRow c.start) := by
  cases step with
  | claim now leaseUntil token batchSize =>
    rcases List.mem_append.mp hc with hold | hnew
    · exact .inl hold
    · obtain ⟨row, hrow, rfl⟩ := List.mem_map.mp hnew
      have hclaimed : row ∈ (Outbox.claim sys.db now leaseUntil token batchSize).2 := hrow
      exact .inr (claim_open hclaimed)
  | deliver token id delivery =>
    simp only [Step.apply] at hc
    split at hc
    · exact .inl hc
    · split_ifs at hc
      · rcases List.mem_cons.mp hc with rfl | hold
        · exact absurd hphase (deliver_phase _ _ _)
        · exact .inl (List.mem_filter.mp hold).1
      · exact .inl hc
  | inspect token id =>
    simp only [Step.apply] at hc
    split at hc
    · exact .inl hc
    · split at hc
      · rcases List.mem_cons.mp hc with rfl | hold
        · cases hphase
        · exact .inl (List.mem_filter.mp hold).1
      · exact .inl hc
  | mark token id now =>
    simp only [Step.apply] at hc
    split at hc
    · exact .inl hc
    · exact .inl (List.mem_filter.mp hc).1
    · exact .inl (List.mem_filter.mp hc).1
  | abort token => exact .inl (List.mem_filter.mp hc).1
  | accept t => simp only [Step.apply] at hc; split at hc <;> exact .inl hc
  | cancel taskId now => simp only [Step.apply] at hc; split at hc <;> exact .inl hc
  | retry taskId now => simp only [Step.apply] at hc; split at hc <;> exact .inl hc
  | progress instanceId status => exact .inl hc
  | observe taskId targetInstance => exact .inl hc
  | record taskId targetInstance status now =>
    simp only [Step.apply] at hc
    split_ifs at hc
    · split at hc
      · exact .inl hc
      · split at hc <;> exact .inl hc
    · exact .inl hc

/-- A settled start stays settled. -/
theorem apply_settled (hunique : UniqueKey OutboxRow.instanceId sys.db.outbox) (step : Step)
    {instanceId : String} (h : Settled sys instanceId) :
    Settled (step.apply codec sys) instanceId := by
  rcases h with hreserved | ⟨⟨row, hrow, hid, hsettled⟩, hclaims⟩
  · exact .inl (apply_reserved step hreserved)
  · refine .inr ⟨?_, fun c hc hinstance hphase => ?_⟩
    · obtain ⟨row', hrow', hid', hsettled'⟩ :=
        (apply_keepsOutbox sys step).settled row hrow hsettled
      exact ⟨row', hrow', hid'.trans hid, hsettled'⟩
    · rcases claimed_of_apply hc hphase with hold | ⟨hopen, hnotSettled⟩
      · exact hclaims c hold hinstance hphase
      · have hsame : c.start = row :=
          List.inj_on_of_nodup_map hunique hopen hrow (hinstance.trans hid.symm)
        exact hnotSettled (hsame ▸ hsettled)

/-- A settled instance is not started. -/
theorem not_starts_of_settled {step : Step} {instanceId : String} (h : Settled sys instanceId) :
    ¬ Starts codec sys step instanceId := by
  rintro ⟨⟨token, id, delivery, rfl⟩, hfree, hreserved⟩
  rcases h with h | ⟨-, hclaims⟩
  · exact hfree h
  · simp only [Step.apply] at hreserved
    split at hreserved
    · exact hfree hreserved
    · rename_i c hc
      split_ifs at hreserved with hphase
      · simp only [deliver_engine] at hreserved
        have hinstance := eq_of_reserved_startOrchestration hfree hreserved
        exact hclaims c (List.mem_of_find?_eq_some hc) hinstance.symm hphase
      · exact hfree hreserved

end

/-! ### Runs -/

section

variable {codec : ControlCodec}

theorem runSteps_append (sys : Sys) (before after : List Step) :
    runSteps codec sys (before ++ after) = runSteps codec (runSteps codec sys before) after :=
  List.foldl_append ..

theorem runSteps_unique (steps : List Step) {sys : Sys}
    (h : UniqueKey OutboxRow.instanceId sys.db.outbox) :
    UniqueKey OutboxRow.instanceId (runSteps codec sys steps).db.outbox := by
  induction steps generalizing sys with
  | nil => exact h
  | cons step steps ih => exact ih ((apply_keepsOutbox sys step).unique h)

theorem runSteps_settled (steps : List Step) {sys : Sys}
    (hunique : UniqueKey OutboxRow.instanceId sys.db.outbox) {instanceId : String}
    (h : Settled sys instanceId) : Settled (runSteps codec sys steps) instanceId := by
  induction steps generalizing sys with
  | nil => exact h
  | cons step steps ih =>
    exact ih ((apply_keepsOutbox sys step).unique hunique) (apply_settled hunique step h)

/-- **No start after the end.** Take a run in which, whenever `record_terminal` makes a task
terminal, the start request of its current instance has been settled. Then no later delivery starts
that instance. -/
theorem not_starts_after_ends (codec : ControlCodec) (steps : List Step)
    (hsettled : ∀ before step after, steps = before ++ step :: after → ∀ instanceId,
      Ends codec (runSteps codec Sys.init before) step instanceId →
        Settled (runSteps codec Sys.init before) instanceId) :
    ∀ before ending between starting after,
      steps = before ++ ending :: between ++ starting :: after → ∀ instanceId,
        Ends codec (runSteps codec Sys.init before) ending instanceId →
          ¬ Starts codec (runSteps codec Sys.init (before ++ ending :: between)) starting
            instanceId := by
  rintro before ending between starting after rfl instanceId hends
  have hunique : UniqueKey OutboxRow.instanceId (runSteps codec Sys.init before).db.outbox :=
    runSteps_unique before (by simp [Sys.init, Db.empty, UniqueKey])
  have hbefore := hsettled before ending (between ++ starting :: after) (by simp) instanceId hends
  rw [runSteps_append]
  exact not_starts_of_settled (runSteps_settled (ending :: between) hunique hbefore)

end

/-! ### A start request that is late -/

/-- A task whose start is late. -/
def lateTask : NewTask where
  id := 1
  key := 7
  kind := "process_candidate"
  policy := ⟨1, 2, "sporos-matcher/1", "null", 1⟩
  orchestrationName := "ProcessCandidate"
  orchestrationVersion := "1.0.0"
  instanceId := "candidate-v1:1"
  inputJson := "null"
  createdAt := 1

/-- The encoders, with SHA-256 on the text that the cancellation of `lateTask` hashes. -/
def lateCodec : ControlCodec :=
  .plain fun _ => 0x6dedc0225eb37e869cc0c9b993cbf6e99db29601f6382c7deb0103d0461e0e36

/-- The first delivery fails and is put off; the cancellation is delivered before the next one, and
its reconcile step does not find the instance. -/
def lateBefore : List Step :=
  [.accept lateTask,
    .claim 2 60002 1 10, .deliver 1 1 (.lost true), .inspect 1 1, .mark 1 1 2,
    .cancel 1 3,
    .claim 4 60004 2 10, .deliver 2 2 .acknowledged, .mark 2 2 4,
    .progress (cancelInstance 1 1) .running,
    .observe 1 "candidate-v1:1"]

/-- The workflow is not found while its start is still in the outbox. -/
def lateEnding : Step := .record 1 "candidate-v1:1" .notFound 5

/-- The start is delivered after that. -/
def lateStarting : Step := .deliver 3 1 .acknowledged

theorem ends_of_any {codec : ControlCodec} {sys : Sys} {taskId : Id} {targetInstance : String}
    {status : OrchestrationStatus} {now : ℤ} {instanceId : String}
    (hopen : (sys.db.task taskId).any
      (fun row => row.terminalAt.isNone && row.instanceId = instanceId) = true)
    (hended : (((Step.record taskId targetInstance status now).apply codec sys).db.task taskId).any
      (fun row => row.terminalAt.isSome) = true) :
    Ends codec sys (.record taskId targetInstance status now) instanceId := by
  obtain ⟨row, hrow, hrowOpen⟩ := (Option.any_eq_true ..).mp hopen
  obtain ⟨row', hrow', hrowEnded⟩ := (Option.any_eq_true ..).mp hended
  simp only [Bool.and_eq_true, Option.isNone_iff_eq_none, decide_eq_true_eq] at hrowOpen
  exact ⟨taskId, targetInstance, status, now, row, row', rfl, hrow, hrowOpen.1, hrowOpen.2, hrow',
    Option.isSome_iff_ne_none.mp hrowEnded⟩

/-- The task is terminal, and the next round starts its instance. -/
theorem late_starts_after_ends :
    Ends lateCodec (runSteps lateCodec Sys.init lateBefore) lateEnding "candidate-v1:1"
      ∧ Starts lateCodec (runSteps lateCodec Sys.init
          (lateBefore ++ lateEnding :: [.claim 5000 65000 3 10])) lateStarting "candidate-v1:1" :=
  ⟨ends_of_any (by decide +kernel) (by decide +kernel),
    ⟨3, 1, .acknowledged, rfl⟩, by decide +kernel, by decide +kernel⟩

/-- The instance is started before the cancellation; the outcome is not written, so that the row is
claimed again. -/
def promptBefore : List Step :=
  [.accept lateTask, .claim 2 60002 1 10, .deliver 1 1 .acknowledged, .cancel 1 3,
    .observe 1 "candidate-v1:1"]

theorem prompt_not_starts_after_ends :
    Ends lateCodec (runSteps lateCodec Sys.init promptBefore) lateEnding "candidate-v1:1"
      ∧ ¬ Starts lateCodec (runSteps lateCodec Sys.init
          (promptBefore ++ lateEnding :: [.claim 70000 130000 3 10])) lateStarting
          "candidate-v1:1" := by
  have hends : Ends lateCodec (runSteps lateCodec Sys.init promptBefore) lateEnding
      "candidate-v1:1" :=
    ends_of_any (by decide +kernel) (by decide +kernel)
  refine ⟨hends, not_starts_after_ends lateCodec
    (promptBefore ++ lateEnding :: [.claim 70000 130000 3 10] ++ lateStarting :: [])
    ?_ promptBefore lateEnding [.claim 70000 130000 3 10] lateStarting [] rfl _ hends⟩
  rintro before step after hsteps instanceId
    ⟨taskId, target, status, now, row, row', rfl, hrow, -, rfl, -⟩
  -- The only step of the run that records an end is the given one.
  obtain ⟨rfl, rfl⟩ : before = promptBefore ∧ taskId = 1 := by
    simp [promptBefore, lateEnding, lateStarting, List.cons_eq_append_iff] at hsteps ⊢
    exact ⟨hsteps.1, hsteps.2.1.1⟩
  have hinstance : ((runSteps lateCodec Sys.init promptBefore).db.task 1).map TaskRow.instanceId
      = some "candidate-v1:1" := by decide +kernel
  rw [hrow, Option.map_some, Option.some_inj] at hinstance
  rw [hinstance]
  exact .inl (by decide +kernel)

end Sporos.Service.Cancellation

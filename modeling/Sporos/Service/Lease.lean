import Sporos.Service.Cancellation

/-! # The leases of the outbox

What the dispatchers write to the rows of the outbox, in any interleaving of their rounds with each
other and with the requests that add rows. A round that has crashed takes no further step or drops
its claims; a lease that has run out is taken over by the next claim. -/

namespace Sporos.Service.Lease

open Sporos.Service.Tables
open Sporos.Service.Ingress
open Sporos.Service.TaskControl
open Sporos.Service.Duroxide
open Sporos.Service.Outbox
open Sporos.Service.Cancellation
open Sporos.Lib.Table

/-! ### Answers of the engine -/

/-- The rows ask for the same start. -/
def SameStart (row start : OutboxRow) : Prop :=
  row.instanceId = start.instanceId ∧ row.orchestrationName = start.orchestrationName
    ∧ row.orchestrationVersion = start.orchestrationVersion ∧ row.inputJson = start.inputJson

section

variable (codec : ControlCodec)

/-- Some step of the run is the delivery of the row by the round of the token, and this is the
answer of the engine: none if it has accepted the start, or whether its error is retryable. -/
def Delivered (steps : List Step) (token : Id) (row : OutboxRow) (answer : Option Bool) : Prop :=
  ∃ before delivery after, steps = before ++ .deliver token row.id delivery :: after
    ∧ (∃ c ∈ (runSteps codec Sys.init before).claims, c.isOf token row.id = true
      ∧ c.phase = .claimed)
    ∧ (startOrchestration (runSteps codec Sys.init before).engine row.instanceId
        row.orchestrationName row.orchestrationVersion row.inputJson delivery).2 = answer

/-- Some step of the run is the inspection of the row by the round of the token after a failed
start, and this is the answer of the engine. -/
def Inspected (steps : List Step) (token : Id) (row : OutboxRow)
    (existing : RootOrchestrationStart) : Prop :=
  ∃ before after, steps = before ++ .inspect token row.id :: after
    ∧ (∃ c ∈ (runSteps codec Sys.init before).claims,
        c.isOf token row.id = true ∧ ∃ retryable, c.phase = .failed retryable)
    ∧ inspectRootOrchestrationStart (runSteps codec Sys.init before).engine row.instanceId
        row.orchestrationName row.orchestrationVersion row.inputJson = existing

/-- The phase of a claim is what the engine has answered. -/
def Heard (steps : List Step) (token : Id) (row : OutboxRow) : Phase → Prop
  | .claimed => True
  | .started => Delivered codec steps token row none
  | .failed retryable => Delivered codec steps token row (some retryable)
  | .inspected retryable existing =>
    Delivered codec steps token row (some retryable) ∧ Inspected codec steps token row existing

variable {codec} {steps : List Step} {token : Id} {row : OutboxRow}

theorem Delivered.append {answer : Option Bool} (h : Delivered codec steps token row answer)
    (step : Step) : Delivered codec (steps ++ [step]) token row answer := by
  obtain ⟨before, delivery, after, rfl, hclaim, hanswer⟩ := h
  exact ⟨before, delivery, after ++ [step], by simp, hclaim, hanswer⟩

theorem Inspected.append {existing : RootOrchestrationStart}
    (h : Inspected codec steps token row existing) (step : Step) :
    Inspected codec (steps ++ [step]) token row existing := by
  obtain ⟨before, after, rfl, hclaim, hanswer⟩ := h
  exact ⟨before, after ++ [step], by simp, hclaim, hanswer⟩

theorem Heard.append {phase : Phase} (h : Heard codec steps token row phase) (step : Step) :
    Heard codec (steps ++ [step]) token row phase := by
  cases phase with
  | claimed => trivial
  | started => exact Delivered.append h step
  | failed retryable => exact Delivered.append h step
  | inspected retryable existing => exact ⟨h.1.append step, h.2.append step⟩

/-- Rows that ask for the same start have the same answers. -/
theorem Heard.congr {start : OutboxRow} {phase : Phase} (h : Heard codec steps token start phase)
    (hid : row.id = start.id) (hsame : SameStart row start) :
      Heard codec steps token row phase := by
  obtain ⟨hinstance, hname, hversion, hinput⟩ := hsame
  cases phase with
  | claimed => trivial
  | started => simpa only [Heard, Delivered, hid, hinstance, hname, hversion, hinput] using h
  | failed retryable => simpa only [Heard, Delivered, hid, hinstance, hname,
    hversion, hinput] using h
  | inspected retryable existing =>
    simpa only [Heard, Delivered, Inspected, hid, hinstance, hname, hversion, hinput] using h

end

/-! ### What is written to a row -/

/-- What the phase of a claim writes to its row. -/
inductive Outcome (now : ℤ) : Phase → (OutboxRow → OutboxRow) → Prop
  | dispatched {phase : Phase}
    (h : phase = .started ∨ ∃ retryable, phase = .inspected retryable .same) :
    Outcome now phase fun row =>
      { row with
        dispatchedAt := some now, lastError := none, leaseToken := none, leaseUntil := none }
  | permanent {phase : Phase} (error : String)
    (h : (∃ retryable, phase = .inspected retryable .collision)
      ∨ phase = .inspected false .missing) :
    Outcome now phase fun row =>
      { row with
        permanentFailureAt := some now
        lastError := some error
        leaseToken := none
        leaseUntil := none }
  | retry {phase : Phase} (attempt : ℕ) (visibleAt : ℤ) (h : phase = .inspected true .missing) :
    Outcome now phase fun row =>
      { row with
        attemptCount := attempt
        visibleAt
        leaseToken := none
        leaseUntil := none
        lastError := some "duroxide_start_retryable" }

/-- The claim is to be retried, at a time or with a count that is out of range. -/
def OutOfRange (c : Claim) (now : ℤ) : Prop :=
  c.phase = .inspected true .missing
    ∧ (now + retryDelay c.start.id (c.start.attemptCount + 1) > i64Max
      ∨ c.start.attemptCount + 1 > i64Max)

/-- The write of an outcome is a guarded update, unless it is that of a retry which is out of range.
-/
theorem mark_cases {db : Db} {c : Claim} {now : ℤ} {result : Except DispatchError Db}
    (h : c.mark db now = some result) :
    (∃ f, Outcome now c.phase f ∧ result = markLeased db c.start.id c.token f)
      ∨ (OutOfRange c now ∧ ∃ e, result = .error e) := by
  unfold Claim.mark at h
  split at h
  · rename_i hphase
    exact .inl ⟨_, .dispatched (.inl hphase), (Option.some_inj.mp h).symm⟩
  · rename_i retryable existing hphase
    have hresult := Option.some_inj.mp h
    cases existing with
    | same => exact .inl ⟨_, .dispatched (.inr ⟨retryable, hphase⟩), hresult.symm⟩
    | collision =>
      exact .inl
        ⟨_, .permanent "duroxide_identity_collision" (.inl ⟨retryable, hphase⟩), hresult.symm⟩
    | missing =>
      cases retryable with
      | false =>
        exact .inl ⟨_, .permanent "duroxide_start_rejected" (.inr hphase), hresult.symm⟩
      | true =>
        simp only [markFailed, markRetry, if_true] at hresult
        split_ifs at hresult with htime hcount
        · exact .inr ⟨⟨hphase, .inl htime⟩, _, hresult.symm⟩
        · exact .inr ⟨⟨hphase, .inr hcount⟩, _, hresult.symm⟩
        · exact .inl ⟨_, .retry _ _ hphase, hresult.symm⟩
  · cases h

/-- What a step does to a row of the outbox: nothing, the lease of a row that is open, or the
outcome of a round that has the lease. -/
inductive Rewrites (sys : Sys) : Step → OutboxRow → OutboxRow → Prop
  | keep (step : Step) (row : OutboxRow) : Rewrites sys step row row
  | lease {row : OutboxRow} (now leaseUntil : ℤ) (token : Id) (batchSize : ℕ)
    (hopen : ¬ SettledRow row) : Rewrites sys (.claim now leaseUntil token batchSize) row
      { row with leaseToken := some token, leaseUntil := some leaseUntil }
  | mark {row : OutboxRow} {c : Claim} {f : OutboxRow → OutboxRow} (now : ℤ) (hc : c ∈ sys.claims)
    (hid : c.start.id = row.id) (hlease : row.leaseToken = some c.token)
    (houtcome : Outcome now c.phase f) : Rewrites sys (.mark c.token row.id now) row (f row)

/-- A row that has just been inserted. -/
structure FreshRow (db : Db) (row : OutboxRow) : Prop where
  id : ∀ old ∈ db.outbox, old.id ≠ row.id
  dispatchedAt : row.dispatchedAt = none
  permanentFailureAt : row.permanentFailureAt = none

theorem lt_nextOutboxId {outbox : List OutboxRow} {row : OutboxRow} (h : row ∈ outbox) :
    row.id < nextOutboxId outbox := by
  unfold nextOutboxId
  induction outbox with
  | nil => cases h
  | cons head outbox ih =>
    simp only [List.map_cons, List.foldr_cons]
    rcases List.mem_cons.mp h with rfl | hmem
    · omega
    · have := ih hmem
      omega

section

variable {codec : ControlCodec} {sys : Sys}

/-- A lease leaves a row or takes it, and taking it twice is taking it once. -/
theorem claim_outbox (db : Db) (now leaseUntil : ℤ) (token : Id) (rows : List OutboxRow) :
    ∃ g : OutboxRow → OutboxRow,
      (rows.foldl (fun db row => updateOutbox db row.id (lease now leaseUntil token)) db).outbox
        = db.outbox.map g
      ∧ ∀ row, g row = row ∨ g row = lease now leaseUntil token row := by
  induction rows generalizing db with
  | nil => exact ⟨id, by simp, fun row => .inl rfl⟩
  | cons first rows ih =>
    obtain ⟨g, hg, hlease⟩ := ih (updateOutbox db first.id (lease now leaseUntil token))
    refine ⟨fun row => g (if row.id = first.id then lease now leaseUntil token row
      else row), ?_, ?_⟩
    · rw [List.foldl_cons, hg, updateOutbox, updateKey, List.map_map]
      rfl
    · intro row
      have htwice : lease now leaseUntil token (lease now leaseUntil token row)
          = lease now leaseUntil token row := by
        unfold lease
        split_ifs <;> rfl
      dsimp only
      split
      · rcases hlease (lease now leaseUntil token row) with h | h
        · exact .inr h
        · exact .inr (h.trans htwice)
      · exact hlease row

theorem rewrites_lease {now leaseUntil : ℤ} {token : Id} {batchSize : ℕ} (row : OutboxRow) :
    Rewrites sys (.claim now leaseUntil token batchSize) row (lease now leaseUntil token row) := by
  unfold lease
  split
  · rename_i hopen
    refine .lease now leaseUntil token batchSize ?_
    simp only [OutboxRow.open, Bool.and_eq_true, Option.isNone_iff_eq_none] at hopen
    rintro (hdispatched | hfailed)
    · exact hdispatched hopen.1.1
    · exact hfailed hopen.1.2
  · exact .keep _ row

/-- **One step.** The rows of the outbox are kept, leased or marked, and at most one row is added.
-/
theorem evolves_apply (codec : ControlCodec) (sys : Sys) (step : Step) :
    Evolves (Rewrites sys step) (FreshRow sys.db) sys.db.outbox
      (step.apply codec sys).db.outbox := by
  have hkeep : ∀ {db' : Db}, db'.outbox = sys.db.outbox →
      Evolves (Rewrites sys step) (FreshRow sys.db) sys.db.outbox db'.outbox := by
    intro db' h
    rw [h]
    exact evolves_refl fun row _ => .keep step row
  have hadd : ∀ {db' : Db} {row : OutboxRow}, row.id = nextOutboxId sys.db.outbox →
      row.dispatchedAt = none → row.permanentFailureAt = none →
      db'.outbox = sys.db.outbox ++ [row] →
      Evolves (Rewrites sys step) (FreshRow sys.db) sys.db.outbox db'.outbox := by
    intro db' row hid hdispatched hpermanent h
    rw [h]
    refine evolves_append (fun row _ => .keep step row) ⟨fun old hold => ?_,
      hdispatched, hpermanent⟩
    have := lt_nextOutboxId hold
    omega
  cases step with
  | accept t =>
    simp only [Step.apply]
    split
    · exact hkeep rfl
    · rename_i h
      rcases (acceptTask_eq_ok h).result with ⟨-, rfl⟩ | ⟨-, -, -, rfl⟩
      · exact hkeep rfl
      · exact hadd rfl rfl rfl rfl
  | cancel taskId now =>
    simp only [Step.apply]
    split
    · exact hkeep rfl
    · rename_i h
      obtain ⟨row, -, -, ⟨-, rfl⟩ | ⟨-, hwrite⟩⟩ := requestCancel_eq_ok h
      · exact hkeep rfl
      · obtain ⟨-, -, -, rfl⟩ := write_eq_some hwrite
        exact hadd rfl rfl rfl rfl
  | retry taskId now =>
    simp only [Step.apply]
    split
    · exact hkeep rfl
    · rename_i h
      obtain ⟨row, start, -, -, -, -, -, hwrite⟩ := retry_eq_ok h
      obtain ⟨-, -, -, rfl⟩ := write_eq_some hwrite
      exact hadd rfl rfl rfl rfl
  | claim now leaseUntil token batchSize =>
    obtain ⟨g, hg, hlease⟩ := claim_outbox sys.db now leaseUntil token
      (Outbox.claim sys.db now leaseUntil token batchSize).2
    have houtbox : ((Step.claim now leaseUntil token batchSize).apply codec sys).db.outbox
        = sys.db.outbox.map g := hg
    rw [houtbox]
    refine evolves_map fun row _ => ?_
    rcases hlease row with h | h
    · rw [h]
      exact .keep _ row
    · rw [h]
      exact rewrites_lease row
  | deliver token id delivery =>
    simp only [Step.apply]
    split
    · exact hkeep rfl
    · split_ifs <;> exact hkeep rfl
  | inspect token id =>
    simp only [Step.apply]
    split
    · exact hkeep rfl
    · split <;> exact hkeep rfl
  | mark token id now =>
    simp only [Step.apply]
    split
    · exact hkeep rfl
    · rename_i db' h
      obtain ⟨c, hfind, hmark⟩ := Option.bind_eq_some_iff.mp h
      have hc := List.mem_of_find?_eq_some hfind
      obtain ⟨rfl, rfl⟩ : c.token = token ∧ c.start.id = id := by
        simpa [Claim.isOf] using List.find?_some hfind
      rcases mark_cases hmark with ⟨f, houtcome, hresult⟩ | ⟨-, e, hresult⟩
      · unfold markLeased at hresult
        split_ifs at hresult
        obtain rfl := Except.ok.inj hresult
        refine evolves_map fun row _ => ?_
        dsimp only
        by_cases hid : row.id = c.start.id
        · by_cases hlease : row.leaseToken = some c.token
          · rw [if_pos hid, if_pos hlease, ← hid]
            exact .mark now hc hid.symm hlease houtcome
          · rw [if_pos hid, if_neg hlease]
            exact .keep _ row
        · rw [if_neg hid]
          exact .keep _ row
      · cases hresult
    · exact hkeep rfl
  | abort token => exact hkeep rfl
  | progress instanceId status => exact hkeep rfl
  | observe taskId targetInstance => exact hkeep rfl
  | record taskId targetInstance status now =>
    simp only [Step.apply]
    split_ifs
    · split
      · exact hkeep rfl
      · split
        · exact hkeep rfl
        · rename_i h
          rcases recordTerminal_eq_ok h with rfl | ⟨row, -, -, -, -, rfl⟩
          · exact hkeep rfl
          · exact hkeep rfl
    · exact hkeep rfl

/-- A row keeps its identifier and its start. -/
theorem Rewrites.same {step : Step} {row row' : OutboxRow} (h : Rewrites sys step row row') :
    row'.id = row.id ∧ SameStart row' row := by
  cases h with
  | keep => exact ⟨rfl, rfl, rfl, rfl, rfl⟩
  | lease => exact ⟨rfl, rfl, rfl, rfl, rfl⟩
  | mark now hc hid hlease houtcome => cases houtcome <;> exact ⟨rfl, rfl, rfl, rfl, rfl⟩

/-- The claims after a step: old ones, rows that have just been claimed, and claims that have heard
an answer. -/
theorem claims_apply {step : Step} {c' : Claim} (h : c' ∈ (step.apply codec sys).claims) :
    c' ∈ sys.claims
      ∨ (c'.start ∈ sys.db.outbox ∧ c'.phase = .claimed)
      ∨ (∃ c ∈ sys.claims, ∃ delivery, step = .deliver c.token c.start.id delivery
          ∧ c.phase = .claimed ∧ c' = { c with phase := (c.deliver sys.engine delivery).2 })
      ∨ ∃ c ∈ sys.claims, ∃ retryable, step = .inspect c.token c.start.id
          ∧ c.phase = .failed retryable ∧ c' = { c with
            phase := c.inspect sys.engine retryable } := by
  cases step with
  | claim now leaseUntil token batchSize =>
    rcases List.mem_append.mp h with hold | hnew
    · exact .inl hold
    · obtain ⟨row, hrow, rfl⟩ := List.mem_map.mp hnew
      have hclaimed : row ∈ (Outbox.claim sys.db now leaseUntil token batchSize).2 := hrow
      exact .inr (.inl ⟨(claim_open hclaimed).1, rfl⟩)
  | deliver token id delivery =>
    simp only [Step.apply] at h
    split at h
    · exact .inl h
    · rename_i c hfind
      obtain ⟨rfl, rfl⟩ : c.token = token ∧ c.start.id = id := by
        simpa [Claim.isOf] using List.find?_some hfind
      split_ifs at h with hphase
      · rcases List.mem_cons.mp h with rfl | hold
        · exact .inr (.inr (.inl ⟨c, List.mem_of_find?_eq_some hfind, delivery, rfl, hphase, rfl⟩))
        · exact .inl (List.mem_filter.mp hold).1
      · exact .inl h
  | inspect token id =>
    simp only [Step.apply] at h
    split at h
    · exact .inl h
    · rename_i c hfind
      obtain ⟨rfl, rfl⟩ : c.token = token ∧ c.start.id = id := by
        simpa [Claim.isOf] using List.find?_some hfind
      split at h
      · rename_i retryable hphase
        rcases List.mem_cons.mp h with rfl | hold
        · exact .inr (.inr (.inr ⟨c, List.mem_of_find?_eq_some hfind, retryable, rfl, hphase, rfl⟩))
        · exact .inl (List.mem_filter.mp hold).1
      · exact .inl h
  | mark token id now =>
    simp only [Step.apply] at h
    split at h
    · exact .inl h
    · exact .inl (List.mem_filter.mp h).1
    · exact .inl (List.mem_filter.mp h).1
  | abort token => exact .inl (List.mem_filter.mp h).1
  | accept t => simp only [Step.apply] at h; split at h <;> exact .inl h
  | cancel taskId now => simp only [Step.apply] at h; split at h <;> exact .inl h
  | retry taskId now => simp only [Step.apply] at h; split at h <;> exact .inl h
  | progress instanceId status => exact .inl h
  | observe taskId targetInstance => exact .inl h
  | record taskId targetInstance status now =>
    simp only [Step.apply] at h
    split_ifs at h
    · split at h
      · exact .inl h
      · split at h <;> exact .inl h
    · exact .inl h

end

/-! ### The invariant -/

/-- A row is not both dispatched and failed, and a settled row has no lease. -/
structure RowOk (row : OutboxRow) : Prop where
  once : row.dispatchedAt = none ∨ row.permanentFailureAt = none
  released : SettledRow row → row.leaseToken = none

/-- What holds after the steps of a run. -/
structure Leases (codec : ControlCodec) (steps : List Step) (sys : Sys) : Prop where
  unique : UniqueKey OutboxRow.id sys.db.outbox
  row : ∀ row ∈ sys.db.outbox, RowOk row
  claim : ∀ c ∈ sys.claims, Heard codec steps c.token c.start c.phase
    ∧ ∃ row ∈ sys.db.outbox, row.id = c.start.id ∧ SameStart row c.start

section

variable {codec : ControlCodec} {sys : Sys} {steps : List Step}

theorem Rewrites.rowOk {step : Step} {row row' : OutboxRow} (h : Rewrites sys step row row')
    (hrow : RowOk row) : RowOk row' := by
  cases h with
  | keep => exact hrow
  | lease now leaseUntil token batchSize hopen =>
    exact ⟨hrow.once, fun hsettled => absurd hsettled hopen⟩
  | mark now hc hid hlease houtcome =>
    -- the row has a lease, so that it has not been settled
    have hopen : ¬ SettledRow row := by
      intro hsettled
      rw [hrow.released hsettled] at hlease
      cases hlease
    simp only [SettledRow, not_or, not_not] at hopen
    cases houtcome with
    | dispatched => exact ⟨.inr hopen.2, fun _ => rfl⟩
    | permanent => exact ⟨.inl hopen.1, fun _ => rfl⟩
    | retry => exact ⟨hrow.once, fun _ => rfl⟩

theorem FreshRow.rowOk {db : Db} {row : OutboxRow} (h : FreshRow db row) : RowOk row := by
  refine ⟨.inl h.dispatchedAt, ?_⟩
  rintro (hsettled | hsettled)
  · exact absurd h.dispatchedAt hsettled
  · exact absurd h.permanentFailureAt hsettled

theorem SameStart.trans {row₁ row₂ row₃ : OutboxRow} (h : SameStart row₁ row₂)
    (h' : SameStart row₂ row₃) : SameStart row₁ row₃ :=
  ⟨h.1.trans h'.1, h.2.1.trans h'.2.1, h.2.2.1.trans h'.2.2.1, h.2.2.2.trans h'.2.2.2⟩

theorem heard_deliver (codec : ControlCodec) {c : Claim} (steps : List Step) (delivery : Delivery)
    (hsys : sys = runSteps codec Sys.init steps) (hc : c ∈ sys.claims)
    (hphase : c.phase = .claimed) :
    Heard codec (steps ++ [.deliver c.token c.start.id delivery]) c.token c.start
      (c.deliver sys.engine delivery).2 := by
  have hdelivered : Delivered codec (steps
    ++ [.deliver c.token c.start.id delivery]) c.token c.start
      (startOrchestration sys.engine c.start.instanceId c.start.orchestrationName
        c.start.orchestrationVersion c.start.inputJson delivery).2 := by
    refine ⟨steps, delivery, [], rfl, ⟨c, hsys ▸ hc, by simp [Claim.isOf], hphase⟩, ?_⟩
    rw [hsys]
  unfold Claim.deliver
  split
  · rename_i hstart
    rw [hstart] at hdelivered
    exact hdelivered
  · rename_i hstart
    rw [hstart] at hdelivered
    exact hdelivered

/-- The invariant is kept by a step. -/
theorem Leases.apply (hsys : sys = runSteps codec Sys.init steps) (h : Leases codec steps sys)
    (step : Step) : Leases codec (steps ++ [step]) (step.apply codec sys) := by
  have hevolves := evolves_apply codec sys step
  have hunique : UniqueKey OutboxRow.id (step.apply codec sys).db.outbox :=
    hevolves.unique h.unique (fun row row' h => h.same.1) fun new hnew => hnew.id
  have hnext : ∀ row ∈ sys.db.outbox, ∀ start, row.id = start.id → SameStart row start →
      ∃ row' ∈ (step.apply codec sys).db.outbox, row'.id = start.id ∧ SameStart row' start := by
    intro row hrow start hid hsame
    obtain ⟨row', hrow', hrewrites⟩ := hevolves.exists_next hrow
    exact ⟨row', hrow', hrewrites.same.1.trans hid, hrewrites.same.2.trans hsame⟩
  refine ⟨hunique, ?_, ?_⟩
  · intro row' hrow'
    rcases hevolves.exists_prev hrow' with ⟨row, hrow, hrewrites⟩ | hfresh
    · exact hrewrites.rowOk (h.row row hrow)
    · exact hfresh.rowOk
  · intro c' hc'
    rcases claims_apply hc' with hold | ⟨hrow, hphase⟩ | ⟨c, hc, delivery, rfl, hphase, rfl⟩
      | ⟨c, hc, retryable, rfl, hphase, rfl⟩
    · obtain ⟨hheard, row, hrow, hid, hsame⟩ := h.claim c' hold
      exact ⟨hheard.append step, hnext row hrow _ hid hsame⟩
    · rw [hphase]
      exact ⟨trivial, hnext c'.start hrow _ rfl ⟨rfl, rfl, rfl, rfl⟩⟩
    · obtain ⟨-, row, hrow, hid, hsame⟩ := h.claim c hc
      exact ⟨heard_deliver codec steps delivery hsys hc hphase, hnext row hrow _ hid hsame⟩
    · obtain ⟨hheard, row, hrow, hid, hsame⟩ := h.claim c hc
      rw [hphase] at hheard
      refine ⟨⟨Delivered.append hheard _, ?_⟩, hnext row hrow _ hid hsame⟩
      refine ⟨steps, [], rfl, ⟨c, hsys ▸ hc, by simp [Claim.isOf], retryable, hphase⟩, ?_⟩
      rw [hsys]

theorem leases_runSteps (codec : ControlCodec) (steps : List Step) :
    Leases codec steps (runSteps codec Sys.init steps) := by
  induction steps using List.reverseRecOn with
  | nil =>
    refine ⟨by simp [runSteps, Sys.init, Db.empty, UniqueKey], ?_, ?_⟩ <;>
      simp [runSteps, Sys.init, Db.empty]
  | append_singleton steps step ih =>
    have hrun : runSteps codec Sys.init (steps ++ [step])
        = step.apply codec (runSteps codec Sys.init steps) := by
      rw [runSteps_append]
      rfl
    rw [hrun]
    exact ih.apply rfl step

/-- A settled row is not rewritten. -/
theorem Rewrites.eq_of_settled {step : Step} {row row' : OutboxRow} (h : Rewrites sys step row row')
    (hrow : RowOk row) (hsettled : SettledRow row) : row' = row := by
  cases h with
  | keep => rfl
  | lease now leaseUntil token batchSize hopen => exact absurd hsettled hopen
  | mark now hc hid hlease houtcome =>
    rw [hrow.released hsettled] at hlease
    cases hlease

/-- The engine has answered what the outcome of a row needs. -/
theorem Leases.heard (h : Leases codec steps sys) {c : Claim} (hc : c ∈ sys.claims)
    {row : OutboxRow} (hrow : row ∈ sys.db.outbox) (hid : c.start.id = row.id) :
    Heard codec steps c.token row c.phase := by
  obtain ⟨hheard, row', hrow', hid', hsame⟩ := h.claim c hc
  obtain rfl : row' = row := List.inj_on_of_nodup_map h.unique hrow' hrow (hid'.trans hid)
  exact hheard.congr hid' hsame

/-- Who dispatches a row, and after which answer. -/
theorem Leases.dispatched (h : Leases codec steps sys) {step : Step} {row row' : OutboxRow}
    (hrow : row ∈ sys.db.outbox) (hrewrites : Rewrites sys step row row')
    (hset : row'.dispatchedAt ≠ row.dispatchedAt) :
    ∃ token now, step = .mark token row.id now ∧ row.leaseToken = some token
      ∧ (Delivered codec steps token row none ∨ Inspected codec steps token row .same) := by
  cases hrewrites with
  | keep => exact absurd rfl hset
  | lease => exact absurd rfl hset
  | @mark _ c f now hc hid hlease houtcome =>
    refine ⟨c.token, now, rfl, hlease, ?_⟩
    have hheard := h.heard hc hrow hid
    cases houtcome with
    | dispatched hphase =>
      rcases hphase with hphase | ⟨retryable, hphase⟩
      · rw [hphase] at hheard
        exact .inl hheard
      · rw [hphase] at hheard
        exact .inr hheard.2
    | permanent => exact absurd rfl hset
    | retry => exact absurd rfl hset

/-- Who fails a row for good, and after which answer. -/
theorem Leases.permanent (h : Leases codec steps sys) {step : Step} {row row' : OutboxRow}
    (hrow : row ∈ sys.db.outbox) (hrewrites : Rewrites sys step row row')
    (hset : row'.permanentFailureAt ≠ row.permanentFailureAt) :
    ∃ token now, step = .mark token row.id now ∧ row.leaseToken = some token
      ∧ (Inspected codec steps token row .collision
        ∨ (Delivered codec steps token row (some false)
          ∧ Inspected codec steps token row .missing)) := by
  cases hrewrites with
  | keep => exact absurd rfl hset
  | lease => exact absurd rfl hset
  | @mark _ c f now hc hid hlease houtcome =>
    refine ⟨c.token, now, rfl, hlease, ?_⟩
    have hheard := h.heard hc hrow hid
    cases houtcome with
    | permanent error hphase =>
      rcases hphase with ⟨retryable, hphase⟩ | hphase
      · rw [hphase] at hheard
        exact .inl hheard.2
      · rw [hphase] at hheard
        exact .inr hheard
    | dispatched => exact absurd rfl hset
    | retry => exact absurd rfl hset

/-- No row has the lease of the claim. -/
def Lost (db : Db) (c : Claim) : Prop :=
  ∀ row ∈ db.outbox, row.id = c.start.id → row.leaseToken ≠ some c.token

/-- A round without the lease writes nothing. -/
theorem mark_of_lost {db : Db} {c : Claim} {now : ℤ} {result : Except DispatchError Db}
    (hlost : Lost db c) (h : c.mark db now = some result) :
    (∃ e, result = .error e) ∧ (¬ OutOfRange c now → result = .error (.lostLease c.start.id)) := by
  rcases mark_cases h with ⟨f, -, hresult⟩ | ⟨hrange, e, hresult⟩
  · have hlostLease : result = .error (.lostLease c.start.id) := by
      rw [hresult, markLeased, if_neg]
      rintro ⟨row, hrow, hid, hlease⟩
      exact hlost row hrow hid hlease
    exact ⟨⟨_, hlostLease⟩, fun _ => hlostLease⟩
  · exact ⟨⟨e, hresult⟩, fun hin => absurd hrange hin⟩

end

/-- **The lease protocol.** Take any step after any steps. A row of the outbox is dispatched only by
the round whose token it holds, after the engine has accepted its start or reported the same one; it
is failed for good only by that round, after a collision, or after a rejection that is not retryable
where the engine has no start; it is never both; a settled row is not claimed and not changed; and a
round that has lost its lease of a row changes nothing, and gets `LostLease` unless its retry is out
of range. -/
theorem lease_protocol (codec : ControlCodec) (before : List Step) (step : Step) :
    (∀ row ∈ (runSteps codec Sys.init before).db.outbox,
      ∀ row' ∈ (step.apply codec (runSteps codec Sys.init before)).db.outbox, row'.id = row.id →
        (row'.dispatchedAt ≠ row.dispatchedAt →
          ∃ token now, step = .mark token row.id now ∧ row.leaseToken = some token
            ∧ (Delivered codec before token row none ∨ Inspected codec before token row .same))
        ∧ (row'.permanentFailureAt ≠ row.permanentFailureAt →
          ∃ token now, step = .mark token row.id now ∧ row.leaseToken = some token
            ∧ (Inspected codec before token row .collision
              ∨ (Delivered codec before token row (some false)
                ∧ Inspected codec before token row .missing)))
        ∧ (SettledRow row → row' = row))
      ∧ (∀ row ∈ (runSteps codec Sys.init before).db.outbox,
          (row.dispatchedAt = none ∨ row.permanentFailureAt = none)
          ∧ (SettledRow row → ∀ now leaseUntil token batchSize,
            row ∉ (Outbox.claim (runSteps codec Sys.init before).db now leaseUntil token
              batchSize).2))
      ∧ (∀ row' ∈ (step.apply codec (runSteps codec Sys.init before)).db.outbox,
          (∃ row ∈ (runSteps codec Sys.init before).db.outbox, row'.id = row.id)
            ∨ (row'.dispatchedAt = none ∧ row'.permanentFailureAt = none))
      ∧ ∀ token id now c, step = .mark token id now →
          (runSteps codec Sys.init before).claims.find? (Claim.isOf token id) = some c →
          Lost (runSteps codec Sys.init before).db c →
          (step.apply codec (runSteps codec Sys.init before)).db =
            (runSteps codec Sys.init before).db
            ∧ ∀ result, c.mark (runSteps codec Sys.init before).db now = some result →
              (∃ e, result = .error e)
                ∧ (¬ OutOfRange c now → result = .error (.lostLease id)) := by
  have hleases := leases_runSteps codec before
  generalize runSteps codec Sys.init before = sys at hleases
  have hevolves := evolves_apply codec sys step
  have hunique : UniqueKey OutboxRow.id (step.apply codec sys).db.outbox :=
    hevolves.unique hleases.unique (fun row row' h => h.same.1) fun new hnew => hnew.id
  refine ⟨fun row hrow row' hrow' hid => ?_, fun row hrow => ?_, fun row' hrow' => ?_, ?_⟩
  · have hrewrites := hevolves.of_key hunique (fun row row' h => h.same.1) hrow hrow' hid
    exact ⟨hleases.dispatched hrow hrewrites, hleases.permanent hrow hrewrites,
      hrewrites.eq_of_settled (hleases.row row hrow)⟩
  · exact ⟨(hleases.row row hrow).once, fun hsettled now leaseUntil token batchSize hclaimed =>
      (claim_open hclaimed).2 hsettled⟩
  · rcases hevolves.exists_prev hrow' with ⟨row, hrow, hrewrites⟩ | hfresh
    · exact .inl ⟨row, hrow, hrewrites.same.1⟩
    · exact .inr ⟨hfresh.dispatchedAt, hfresh.permanentFailureAt⟩
  · rintro token id now c rfl hfind hlost
    obtain ⟨rfl, rfl⟩ : c.token = token ∧ c.start.id = id := by
      simpa [Claim.isOf] using List.find?_some hfind
    refine ⟨?_, fun result hmark => mark_of_lost hlost hmark⟩
    simp only [Step.apply, hfind, Option.bind_some]
    split
    · rfl
    · rename_i db' hmark
      obtain ⟨⟨e, he⟩, -⟩ := mark_of_lost hlost hmark
      cases he
    · rfl

/-! ### A retry that is out of range -/

/-- A round that claims the row and does not reach the engine. -/
def lostRound (token : Id) (now : ℤ) : List Step :=
  [.claim now (now + 60000) token 10, .deliver token 1 (.lost true), .inspect token 1]

/-- Seven rounds that put the start off; an eighth, which loses its lease to a ninth. -/
def lateRetry : List Step :=
  [.accept lateTask] ++ (List.range 7).flatMap (fun n : ℕ =>
      lostRound (.ofNat 128 n) (1000000 * (n + 1)) ++ [.mark (.ofNat 128 n) 1 (1000000 * (n + 1))])
    ++ lostRound 8 (i64Max - 120000) ++ [.claim (i64Max - 60000) i64Max 9 10]

/-- The eighth round has lost its lease, and gets another error than `LostLease`. -/
theorem lateRetry_timeOverflow :
    ∃ c ∈ (runSteps lateCodec Sys.init lateRetry).claims, c.token = 8
      ∧ (∀ row ∈ (runSteps lateCodec Sys.init lateRetry).db.outbox, row.leaseToken = some 9)
      ∧ c.mark (runSteps lateCodec Sys.init lateRetry).db (i64Max - 120000)
        = some (.error .timeOverflow) := by
  decide +kernel

end Sporos.Service.Lease

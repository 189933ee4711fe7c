import Sporos.Service.InjectionRun

/-! # Single-plan start safety

Over all runs of an injection, with crashes, executions again and further runs: a torrent is started
only on a decision that is in the row of the plan, and the decision rests on piece states that were
fetched after the last `force_recheck` and the last materialisation of the plan.

`record_injection` takes a decision of an earlier run out of the row, before the materialisation and
the recheck; from there on until `observe` decides, the row holds none. -/

namespace Sporos.Service.StartSafety

open Sporos.Model.Matching
open Sporos.Service.Tables
open Sporos.Service.Pieces
open Sporos.Service.Injection
open Sporos.Service.InjectionRun
open Sporos.Lib.Program
open Sporos.Lib.Processes

/-! ### The decision -/

/-- The plan's own inspection of a response and its resume policy allow a start. -/
def Permits (plan : InjectionPlan) (states : List ℕ) : Prop :=
  ∃ pieces amountLeft, inspectPieces plan.manifest plan.mappedOrdinals states = .ok pieces
    ∧ pieces.integritySafe = true ∧ resumeAllowed plan.resume amountLeft pieces = true

/-- The decision rests on a response that was fetched after the last recheck and materialisation. -/
def Rests (plan : InjectionPlan) (history : History) : Prop :=
  ∃ fetch, history.decided = some fetch ∧ history.rechecked < fetch.time
    ∧ history.materialized < fetch.time ∧ Permits plan fetch.states

/-- The row of a plan holds the decision to resume. -/
def Decided (state : PlanState) : Prop :=
  ∃ row, state.injection = some row ∧ row.state = "finalizing" ∧ row.resumeDecision = some "resume"

/-- What must hold when a torrent is started. -/
def MayStart (plan : InjectionPlan) (state : PlanState) : Prop :=
  ∃ row, state.injection = some row ∧ row.state = "finalizing" ∧ row.resumeDecision = some "resume"
    ∧ row.integritySafe = some true ∧ Rests plan state.history

/-! ### The invariant of a phase -/

/-- The times of the history are past. -/
def Past (state : PlanState) (clock : ℕ) : Prop :=
  state.history.rechecked ≤ clock ∧ state.history.materialized ≤ clock

/-- The row is there and holds no decision. -/
def Undecided (state : PlanState) : Prop :=
  ∃ row, state.injection = some row ∧ row.resumeDecision = none

/-- The row is there, and a decision to resume in it may be followed. -/
def Backed (plan : InjectionPlan) (state : PlanState) : Prop :=
  state.injection.isSome ∧ (Decided state → MayStart plan state)

/-- What holds in a phase. -/
def Inv (plan : InjectionPlan) (phase : Phase) (state : PlanState) : Prop :=
  match phase with
  | .prepare => True
  | .materialize => Undecided state
  | .recheck => Undecided state
  | .observe => Backed plan state
  | .ended _ => True

theorem Undecided.backed {plan : InjectionPlan} {state : PlanState} (h : Undecided state) :
    Backed plan state := by
  obtain ⟨row, hrow, hnone⟩ := h
  refine ⟨by rw [hrow]; rfl, ?_⟩
  rintro ⟨row', hrow', -, hresume⟩
  obtain rfl : row = row' := Option.some_inj.mp (hrow.symm.trans hrow')
  rw [hnone] at hresume
  cases hresume

/-- An update of the row that keeps its decision and its safe pieces, and leaves it in its state or
brings it to one that is not `finalizing`. -/
structure KeepsRow (f : InjectionRow → InjectionRow) : Prop where
  resumeDecision : ∀ row, (f row).resumeDecision = row.resumeDecision
  integritySafe : ∀ row, (f row).integritySafe = row.integritySafe
  state : ∀ row, (f row).state = row.state ∨ (f row).state ≠ "finalizing"

theorem KeepsRow.decided {f : InjectionRow → InjectionRow} (hf : KeepsRow f) {state : PlanState}
    {planState : String} {history : History}
    (h : Decided ⟨state.injection.map f, planState, history⟩) : Decided state := by
  obtain ⟨row', hrow', hfinal, hresume⟩ := h
  obtain ⟨row, hrow, rfl⟩ := Option.map_eq_some_iff.mp hrow'
  have hkept : (f row).state = row.state := (hf.state row).resolve_right (not_not.mpr hfinal)
  exact ⟨row, hrow, hkept ▸ hfinal, hf.resumeDecision row ▸ hresume⟩

theorem KeepsRow.backed {f : InjectionRow → InjectionRow} (hf : KeepsRow f) {plan : InjectionPlan}
    {state : PlanState} {planState : String} (h : Backed plan state) :
    Backed plan ⟨state.injection.map f, planState, state.history⟩ := by
  obtain ⟨hsome, hbacked⟩ := h
  refine ⟨by simpa using hsome, fun hdecided => ?_⟩
  obtain ⟨row, hrow, -, -, hsafe, hrests⟩ := hbacked (hf.decided hdecided)
  obtain ⟨row', hrow', hfinal, hresume⟩ := hdecided
  obtain rfl : f row = row' := by simpa [hrow] using hrow'
  exact ⟨f row, hrow', hfinal, hresume, (hf.integritySafe row).trans hsafe, hrests⟩

theorem keepsRow_updateObservation (observed : Observed) {state : String}
    (hstate : state ≠ "finalizing") :
    KeepsRow fun row => { row.observe observed with state } :=
  ⟨fun _ => rfl, fun _ => rfl, fun _ => .inr hstate⟩

theorem keepsRow_bumpVerification (observed : Observed) :
    KeepsRow fun row =>
      { row.observe observed with verificationAttempts := row.verificationAttempts + 1 } :=
  ⟨fun _ => rfl, fun _ => rfl, fun _ => .inl rfl⟩

theorem keepsRow_failInjection : KeepsRow fun row => { row with state := "failed" } :=
  ⟨fun _ => rfl, fun _ => rfl, fun _ => .inr (by simp)⟩

theorem Undecided.update {state : PlanState} (h : Undecided state) {f : InjectionRow → InjectionRow}
    {planState : String} {history : History}
    (hdecision : ∀ row, (f row).resumeDecision = row.resumeDecision) :
    Undecided ⟨state.injection.map f, planState, history⟩ := by
  obtain ⟨row, hrow, hnone⟩ := h
  exact ⟨f row, by simp [hrow], by rw [hdecision]; exact hnone⟩

/-! ### Operations -/

/-- The operations before the decision: neither a start nor a decision. -/
def BeforeDecision {γ : Type} : Effect γ → Prop
  | .start _ => False
  | .recordResumeDecision .. => False
  | _ => True

/-- The operations of `observe` that touch neither the decision nor the times. -/
def KeepsDecision {γ : Type} : Effect γ → Prop
  | .now => True
  | .stop _ => True
  | .setPlanState _ => True
  | .updateObservation _ state => state ≠ "finalizing"
  | .bumpVerification _ => True
  | .verificationAttempts => True
  | .completeInjection _ => True
  | .failInjection => True
  | .setCandidateState .. => True
  | .task => True
  | .projectTask _ => True
  | _ => False

section

variable {ι : Type} [DecidableEq ι] {fromStr jsonValid : String → Bool} {ctx : ι → Context} {p : ι}

theorem exec_past {γ : Type} (e : Effect γ) {w : World ι} (h : Past (w.plans p) w.clock) :
    Past ((exec fromStr jsonValid ctx p e w).2.plans p)
      (exec fromStr jsonValid ctx p e w).2.clock := by
  rw [exec_clock]
  obtain ⟨hrechecked, hmaterialized⟩ := h
  cases e <;> simp only [exec, perform, World.updateHistory, World.updateInjection,
    World.setPlanState, World.updatePlan_self, World.link_plans, Past]
  all_goals exact ⟨by omega, by omega⟩

theorem exec_undecided {γ : Type} (e : Effect γ) {w : World ι} (he : BeforeDecision e)
    (h : Undecided (w.plans p)) : Undecided ((exec fromStr jsonValid ctx p e w).2.plans p) := by
  cases e <;> simp only [exec, perform, World.updateHistory, World.updateInjection,
    World.setPlanState, World.updatePlan_self, World.link_plans]
  case start hash => exact he.elim
  case recordResumeDecision observed integritySafe resume => exact he.elim
  case insertInjection observed state => exact ⟨_, rfl, rfl⟩
  all_goals first | exact h | exact h.update fun _ => rfl

theorem exec_backed {γ : Type} (e : Effect γ) {w : World ι} {plan : InjectionPlan}
    (he : KeepsDecision e) (h : Backed plan (w.plans p)) :
    Backed plan ((exec fromStr jsonValid ctx p e w).2.plans p) := by
  cases e <;> simp only [exec, perform, World.updateHistory, World.updateInjection,
    World.setPlanState, World.updatePlan_self, World.link_plans] <;>
    first
    | exact he.elim
    | exact h
    | skip
  case updateObservation observed state => exact (keepsRow_updateObservation observed he).backed h
  case bumpVerification observed => exact (keepsRow_bumpVerification observed).backed h
  case completeInjection observed =>
    exact (keepsRow_updateObservation observed (by decide)).backed h
  case failInjection => exact keepsRow_failInjection.backed h

/-! ### The activities -/

variable (fromStr jsonValid ctx p)

/-- The times are past, and something is known of the plan. -/
def At (P : PlanState → Prop) (w : World ι) : Prop := Past (w.plans p) w.clock ∧ P (w.plans p)

/-- A torrent is started only when the plan may start it, and the decision to resume is recorded
only when the response that was fetched permits it. -/
def Allowed {γ : Type} (e : Effect γ) (w : World ι) : Prop :=
  match e with
  | .start _ => MayStart (ctx p).plan (w.plans p)
  | .recordResumeDecision _ _ resume => resume = true →
    ∃ fetch, (w.plans p).history.fetched = some fetch ∧ Permits (ctx p).plan fetch.states
  | _ => True

/-- A program of a phase is safe. -/
abbrev SafeIn (phase : Phase) (program : Activity) (w : World ι) : Prop :=
  Safe (exec fromStr jsonValid ctx p) (Same p) (fun _ _ => True) (At p (Inv (ctx p).plan phase))
    (Allowed ctx p) (fun result => At p (Inv (ctx p).plan (next phase result))) program w

variable {fromStr jsonValid ctx p}

omit [DecidableEq ι] in
theorem At.same {P : PlanState → Prop} {w w' : World ι} (h : At p P w) (hsame : Same p w w') :
    At p P w' := by
  obtain ⟨hplans, hclock⟩ := hsame
  unfold At
  rw [hplans]
  exact ⟨⟨h.1.1.trans hclock, h.1.2.trans hclock⟩, h.2⟩

omit [DecidableEq ι] in
theorem At.mono {P P' : PlanState → Prop} {w : World ι} (h : At p P w)
    (himp : ∀ state, P state → P' state) : At p P' w := ⟨h.1, himp _ h.2⟩

omit [DecidableEq ι] in
theorem allowed_of_beforeDecision {γ : Type} (e : Effect γ) (w : World ι) (he : BeforeDecision e) :
    Allowed ctx p e w := by
  cases e <;> first | exact he.elim | trivial

omit [DecidableEq ι] in
theorem allowed_of_keepsDecision {γ : Type} (e : Effect γ) (w : World ι) (he : KeepsDecision e) :
    Allowed ctx p e w := by
  cases e <;> first | exact he.elim | trivial

theorem allowsFail_beforeDecision : AllowsFail @BeforeDecision :=
  ⟨trivial, trivial, trivial, fun _ => trivial, trivial, fun _ => trivial⟩

theorem allowsFail_keepsDecision : AllowsFail @KeepsDecision :=
  ⟨trivial, trivial, trivial, fun _ => trivial, trivial, fun _ => trivial⟩

/-- One operation of a program. -/
theorem safeIn_perform {phase : Phase} {P : PlanState → Prop}
    (hinv : ∀ state, P state → Inv (ctx p).plan phase state) {γ : Type} {e : Effect γ}
    {f : γ → Activity} {w : World ι} (hw : At p P w) (hok : ∀ w, P (w.plans p) → Allowed ctx p e w)
    (h : ∀ w', At p P w' → SafeIn fromStr jsonValid ctx p phase
      (f (exec fromStr jsonValid ctx p e w').1) (exec fromStr jsonValid ctx p e w').2) :
    SafeIn fromStr jsonValid ctx p phase (Prog.perform e >>= f) w :=
  Safe.perform (fun _ _ => At.same) (fun _ hw => hw.mono hinv) hw (fun w hw => hok w hw.2)
    fun w' hw' _ => h w' hw'

/-- Operations before the decision. -/
theorem safeIn_of_within {phase : Phase} {P : PlanState → Prop}
    (hinv : ∀ state, P state → Inv (ctx p).plan phase state)
    (hexec : ∀ {γ : Type} (e : Effect γ) (w : World ι), BeforeDecision e → P (w.plans p) →
      P ((exec fromStr jsonValid ctx p e w).2.plans p)) {Q : StepResult → Prop}
    (hpost : ∀ result state, Q result → P state → Inv (ctx p).plan (next phase result) state)
    {program : Activity} (hprogram : Within @BeforeDecision Q program) {w : World ι}
    (hw : At p P w) : SafeIn fromStr jsonValid ctx p phase program w :=
  Safe.of_within (fun _ _ => At.same) (fun _ hw => hw.mono hinv)
    (fun e w he hw => ⟨exec_past e hw.1, hexec e w he hw.2⟩)
    (fun e w he _ => allowed_of_beforeDecision e w he)
    (fun result _ hresult hw => hw.mono fun _ => hpost result _ hresult) hprogram hw

/-! #### Materialisation and recheck -/

theorem safeIn_materialize {w : World ι} (hw : At p Undecided w) :
    SafeIn fromStr jsonValid ctx p .materialize (materialize (ctx p)) w := by
  have hwithin : Within @BeforeDecision (fun _ => True) (materialize (ctx p)) :=
    within_materialize _ allowsFail_beforeDecision trivial (fun _ => trivial) trivial
      (fun _ _ => trivial) fun _ => trivial
  refine safeIn_of_within ?_ (fun e w he hw => exec_undecided e he hw) ?_ hwithin hw
  · exact fun _ h => h
  · rintro (_ | _ | ⟨state, reason⟩) state _ h
    · exact h
    · trivial
    · trivial

theorem safeIn_recheck {w : World ι} (hw : At p Undecided w) :
    SafeIn fromStr jsonValid ctx p .recheck (recheck (ctx p)) w := by
  have hwithin : Within @BeforeDecision (fun _ => True) (recheck (ctx p)) :=
    within_recheck _ allowsFail_beforeDecision trivial (fun _ => trivial) trivial trivial
  refine safeIn_of_within ?_ (fun e w he hw => exec_undecided e he hw) ?_ hwithin hw
  · exact fun _ h => h
  · rintro (_ | _ | ⟨state, reason⟩) state _ h
    · exact h.backed
    · exact h.backed
    · trivial

/-! #### Preparation -/

/-- Nothing is known of the plan. -/
def Any (_ : PlanState) : Prop := True

theorem inv_prepare (plan : InjectionPlan) : ∀ state, Any state → Inv plan .prepare state :=
  fun _ h => h

/-- Operations of `prepare` before the row is written. -/
theorem safeIn_prepare_of_within {program : Activity}
    (hprogram : Within @BeforeDecision (· ≠ .ready) program) {w : World ι} (hw : At p Any w) :
    SafeIn fromStr jsonValid ctx p .prepare program w := by
  refine safeIn_of_within ?_ (fun _ _ _ _ => trivial) ?_ hprogram hw
  · exact fun _ _ => trivial
  · rintro (_ | _ | ⟨state, reason⟩) state hresult _
    · exact absurd rfl hresult
    · trivial
    · trivial

theorem safeIn_prepare_fail (reason : String) {w : World ι} (hw : At p Any w) :
    SafeIn fromStr jsonValid ctx p .prepare (fail (ctx p) reason) w :=
  safeIn_prepare_of_within ((within_fail _ allowsFail_beforeDecision reason).mono
    fun result hresult => by simp [hresult]) hw

theorem safeIn_prepare_waiting {w : World ι} (hw : At p Any w) :
    SafeIn fromStr jsonValid ctx p .prepare (pure .waiting) w := by
  have hwaiting : Within @BeforeDecision (· ≠ .ready) (pure .waiting : Activity) := by
    simp [Within]
  exact safeIn_prepare_of_within hwaiting hw

/-- One operation of `prepare` before the row is written. -/
theorem safeIn_prepare_perform {γ : Type} {e : Effect γ} {f : γ → Activity} {w : World ι}
    (hw : At p Any w) (he : BeforeDecision e)
    (h : ∀ b w', At p Any w' → SafeIn fromStr jsonValid ctx p .prepare (f b) w') :
    SafeIn fromStr jsonValid ctx p .prepare (Prog.perform e >>= f) w :=
  safeIn_perform (inv_prepare _) hw (fun w _ => allowed_of_beforeDecision e w he)
    fun _ hw' => h _ _ ⟨exec_past e hw'.1, trivial⟩

theorem safeIn_prepareFound (torrent : TorrentState) {w : World ι} (hw : At p Any w) :
    SafeIn fromStr jsonValid ctx p .prepare (prepareFound (ctx p) torrent) w := by
  unfold prepareFound
  split
  · exact safeIn_prepare_fail _ hw
  split
  · exact safeIn_prepare_perform hw trivial fun _ _ => safeIn_prepare_waiting
  unfold observedOf
  cases torrent.observed with
  | none =>
    have hfail : Within @BeforeDecision (· ≠ .ready) (.fail : Activity) := trivial
    exact safeIn_prepare_of_within hfail hw
  | some observed =>
    -- The row is written: from here on it holds no decision.
    refine safeIn_perform (inv_prepare _) hw (fun _ _ => trivial) fun w' hw' => ?_
    have hundecided : Undecided ((exec fromStr jsonValid ctx p
        (.insertInjection observed "added_stopped") w').2.plans p) := by
      refine ⟨insertedRow (w'.plans p).injection observed "added_stopped", ?_, rfl⟩
      simp [exec, perform]
    have hwithin : Within @BeforeDecision (fun _ => True)
        (Prog.perform (.setPlanState "added_stopped") >>= fun _ => pure .ready : Activity) :=
      ⟨trivial, fun _ => trivial⟩
    refine safeIn_of_within ?_ (fun e w he hw => exec_undecided e he hw) ?_ hwithin
      ⟨exec_past _ hw'.1, hundecided⟩
    · exact fun _ _ => trivial
    · rintro (_ | _ | ⟨state, reason⟩) state _ h
      · exact h
      · trivial
      · trivial

theorem safeIn_prepare {w : World ι} (hw : At p Any w) :
    SafeIn fromStr jsonValid ctx p .prepare (prepare (ctx p)) w := by
  refine safeIn_prepare_perform hw trivial fun _ w hw => ?_
  split
  · exact safeIn_prepare_fail _ hw
  refine safeIn_prepare_perform hw trivial fun _ w hw => ?_
  refine safeIn_prepare_perform hw trivial fun _ w hw => ?_
  split
  · have hfail : Within @BeforeDecision (· ≠ .ready) (.fail : Activity) := trivial
    exact safeIn_prepare_of_within hfail hw
  refine Safe.bind (Same.refl p) ?_
  refine Safe.of_within (fun _ _ => At.same) (fun _ hw => hw.mono fun _ _ => trivial)
    (fun e _ _ hw => ⟨exec_past e hw.1, trivial⟩)
    (fun e w he _ => allowed_of_beforeDecision e w he) (fun found w _ hw => ?_)
    (within_findTorrent (fun _ => trivial) _ none) hw
  rcases found with _ | _ | torrent
  · exact safeIn_prepare_fail _ hw
  · exact safeIn_prepare_perform hw trivial fun _ _ => safeIn_prepare_waiting
  · exact safeIn_prepareFound torrent hw

/-! #### Observation -/

/-- Operations of `observe` that keep the decision. -/
theorem safeIn_observe_of_within {program : Activity} {Q : StepResult → Prop}
    (hprogram : Within @KeepsDecision Q program) {w : World ι} (hw : At p (Backed (ctx p).plan) w) :
    SafeIn fromStr jsonValid ctx p .observe program w := by
  refine Safe.of_within (fun _ _ => At.same) (fun _ hw => hw)
    (fun e w he hw => ⟨exec_past e hw.1, exec_backed e he hw.2⟩)
    (fun e w he _ => allowed_of_keepsDecision e w he) ?_ hprogram hw
  rintro (_ | _ | ⟨state, reason⟩) w _ hw
  · exact hw.mono fun _ _ => trivial
  · exact hw
  · exact hw.mono fun _ _ => trivial

theorem safeIn_observe_fail (reason : String) {w : World ι} (hw : At p (Backed (ctx p).plan) w) :
    SafeIn fromStr jsonValid ctx p .observe (fail (ctx p) reason) w :=
  safeIn_observe_of_within (within_fail _ allowsFail_keepsDecision reason) hw

theorem within_finish_keepsDecision (ctx : Context) (torrent : TorrentState) (resumed : Bool) :
    Within @KeepsDecision (fun _ => True) (finishInjection ctx torrent resumed) :=
  (within_finishInjection ctx torrent resumed trivial (fun _ => trivial) trivial (fun _ => trivial)
    trivial fun _ _ => trivial).mono fun _ _ => trivial

theorem within_update_keepsDecision (torrent : TorrentState) {state : String}
    (hstate : state ≠ "finalizing") :
    Within @KeepsDecision (fun _ => True) (updateObservation torrent state) :=
  within_updateObservation torrent fun _ => hstate

theorem within_bump_keepsDecision (ctx : Context) (torrent : TorrentState) {program : Activity}
    (hprogram : Within @KeepsDecision (fun _ => True) program) :
    Within @KeepsDecision (fun _ => True) (bumpVerification ctx torrent program) :=
  within_bumpVerification ctx torrent allowsFail_keepsDecision (fun _ => trivial) trivial hprogram

/-- The row holds a decision to resume that may be followed. -/
def Approved (plan : InjectionPlan) (state : PlanState) : Prop := Backed plan state ∧ Decided state

theorem inv_approved (plan : InjectionPlan) :
    ∀ state, Approved plan state → Inv plan .observe state :=
  fun _ h => h.1

/-- The start of a torrent on a decision that is in the row. -/
theorem safeIn_start (hash : String) {w : World ι}
    (hw : At p (Approved (ctx p).plan) w) :
    SafeIn fromStr jsonValid ctx p .observe (startOrStop hash true) w := by
  refine safeIn_perform (inv_approved _) hw (fun _ h => h.1.2 h.2) fun w' hw' => ?_
  have hwaiting : Within @KeepsDecision (fun _ => True) (pure .waiting : Activity) := trivial
  exact safeIn_observe_of_within hwaiting ⟨exec_past (.start hash) hw'.1, hw'.2.1⟩

theorem safeIn_stop (hash : String) {w : World ι} (hw : At p (Backed (ctx p).plan) w) :
    SafeIn fromStr jsonValid ctx p .observe (startOrStop hash false) w := by
  have hstop : Within @KeepsDecision (fun _ => True) (startOrStop hash false) :=
    ⟨trivial, fun _ => trivial⟩
  exact safeIn_observe_of_within hstop hw

/-- The bump of the attempts keeps the state and the decision of the row. -/
theorem Decided.observe {state : PlanState} (h : Decided state) (observed : Observed) :
    Decided { state with injection := state.injection.map fun row =>
      { row.observe observed with verificationAttempts := row.verificationAttempts + 1 } } := by
  obtain ⟨row, hrow, hfinal, hresume⟩ := h
  exact ⟨{ row.observe observed with verificationAttempts := row.verificationAttempts + 1 },
    by rw [hrow]; rfl, hfinal, hresume⟩

theorem safeIn_verifyFinal (row : InjectionRow) (hash : String)
    (torrent : TorrentState) {w : World ι}
    (hw : At p (fun state => Backed (ctx p).plan state ∧ state.injection = some row
      ∧ row.state = "finalizing") w) :
    SafeIn fromStr jsonValid ctx p .observe (verifyFinal (ctx p) row hash torrent) w := by
  have hbacked : At p (Backed (ctx p).plan) w := hw.mono fun _ h => h.1
  unfold verifyFinal
  dsimp only
  split
  · exact safeIn_observe_of_within (within_finish_keepsDecision _ torrent _) hbacked
  by_cases hresume : row.resumeDecision = some "resume"
  swap
  · rw [decide_eq_false hresume]
    have hstop : Within @KeepsDecision (fun _ => True) (startOrStop hash false) :=
      Within.perform trivial fun _ => trivial
    exact safeIn_observe_of_within (within_bump_keepsDecision _ torrent hstop) hbacked
  rw [decide_eq_true hresume]
  have hdecided : At p (Approved (ctx p).plan) w :=
    hw.mono fun _ h => ⟨h.1, row, h.2.1, h.2.2, hresume⟩
  unfold bumpVerification observedOf
  cases torrent.observed with
  | none =>
    have hfail : Within @KeepsDecision (fun _ => True) (.fail : Activity) := trivial
    exact safeIn_observe_of_within hfail hbacked
  | some observed =>
    refine safeIn_perform (inv_approved _) hdecided (fun _ _ => trivial) fun w hw => ?_
    have hbumped : At p (Approved (ctx p).plan)
        (exec fromStr jsonValid ctx p (.bumpVerification observed) w).2 := by
      refine ⟨exec_past _ hw.1, exec_backed _ trivial hw.2.1, ?_⟩
      simpa [exec, perform, World.updateInjection] using hw.2.2.observe observed
    refine safeIn_perform (inv_approved _) hbumped (fun _ _ => trivial) fun w hw => ?_
    have hread : At p (Approved (ctx p).plan)
        (exec fromStr jsonValid ctx p .verificationAttempts w).2 :=
      ⟨exec_past .verificationAttempts hw.1, hw.2⟩
    split
    · have hfail : Within @KeepsDecision (fun _ => True) (.fail : Activity) := trivial
      exact safeIn_observe_of_within hfail (hread.mono fun _ h => h.1)
    split
    · exact safeIn_observe_fail _ (hread.mono fun _ h => h.1)
    · exact safeIn_start hash hread

/-- The plan has fetched piece states after its last recheck and materialisation. -/
def HasFetched (plan : InjectionPlan) (states : List ℕ) (state : PlanState) : Prop :=
  Backed plan state ∧ ∃ fetch, state.history.fetched = some fetch
    ∧ state.history.rechecked < fetch.time ∧ state.history.materialized < fetch.time
    ∧ fetch.states = states

theorem inv_hasFetched (plan : InjectionPlan) (states : List ℕ) :
    ∀ state, HasFetched plan states state → Inv plan .observe state := fun _ h => h.1

/-- The row after the decision; it says to resume only if the response permits it. -/
theorem HasFetched.decide {plan : InjectionPlan} {states : List ℕ} {state : PlanState}
    (h : HasFetched plan states state) (observed : Observed) {integritySafe resume : Bool}
    (hresume : resume = true → integritySafe = true ∧ Permits plan states) :
    Backed plan { state with
        injection := state.injection.map (decidedRow observed integritySafe resume)
        history := { state.history with decided := state.history.fetched } }
      ∧ (resume = true → Decided { state with
        injection := state.injection.map (decidedRow observed integritySafe resume)
        history := { state.history with decided := state.history.fetched } }) := by
  obtain ⟨⟨hsome, -⟩, fetch, hfetch, hrechecked, hmaterialized, rfl⟩ := h
  obtain ⟨row, hrow⟩ := Option.isSome_iff_exists.mp hsome
  have hmap : state.injection.map (decidedRow observed integritySafe resume)
      = some (decidedRow observed integritySafe resume row) := by rw [hrow]; rfl
  refine ⟨⟨by simp [hrow], ?_⟩, fun htrue => ⟨_, hmap, rfl, by simp [decidedRow, htrue]⟩⟩
  rintro ⟨row', hrow', hfinal, hdecision⟩
  obtain rfl := Option.some_inj.mp (hmap.symm.trans hrow')
  have htrue : resume = true := by
    by_contra hfalse
    simp [decidedRow, Bool.not_eq_true _ ▸ hfalse] at hdecision
  obtain ⟨hsafe, hpermits⟩ := hresume htrue
  exact ⟨_, hrow', hfinal, hdecision, by simp [decidedRow, hsafe], fetch, hfetch, hrechecked,
    hmaterialized, hpermits⟩

theorem safeIn_decide (hash : String) (observed : Observed) {states : List ℕ}
    {integritySafe resume : Bool} {w : World ι} (hw : At p (HasFetched (ctx p).plan states) w)
    (hresume : resume = true → integritySafe = true ∧ Permits (ctx p).plan states) :
    SafeIn fromStr jsonValid ctx p .observe
      (Prog.perform (.recordResumeDecision observed integritySafe resume) >>=
        fun _ => startOrStop hash resume) w := by
  have hallowed : ∀ w, HasFetched (ctx p).plan states (w.plans p) →
      Allowed ctx p (.recordResumeDecision observed integritySafe resume) w := by
    rintro w ⟨-, fetch, hfetch, -, -, rfl⟩ htrue
    exact ⟨fetch, hfetch, (hresume htrue).2⟩
  refine safeIn_perform (inv_hasFetched _ _) hw hallowed fun w hw => ?_
  have hdecide := hw.2.decide observed hresume
  have hpast : Past
      ((exec fromStr jsonValid ctx p (.recordResumeDecision observed integritySafe
        resume) w).2.plans p)
      (exec fromStr jsonValid ctx p (.recordResumeDecision observed integritySafe
        resume) w).2.clock :=
    exec_past _ hw.1
  cases resume with
  | false =>
    refine safeIn_stop hash ⟨hpast, ?_⟩
    simpa [exec, perform, World.updateInjection, World.updateHistory] using hdecide.1
  | true =>
    refine safeIn_start hash ⟨hpast, ?_, ?_⟩
    · simpa [exec, perform, World.updateInjection, World.updateHistory] using hdecide.1
    · simpa [exec, perform, World.updateInjection, World.updateHistory] using hdecide.2 rfl

theorem safeIn_inspect (hash : String) (torrent : TorrentState) {w : World ι}
    (hw : At p (Backed (ctx p).plan) w) :
    SafeIn fromStr jsonValid ctx p .observe (inspect (ctx p) hash torrent) w := by
  refine safeIn_perform (P := Backed (ctx p).plan) (fun _ h => by exact h) hw (fun _ _ => trivial)
    fun w hw => ?_
  have hfetched : At p (HasFetched (ctx p).plan w.pieces)
      (exec fromStr jsonValid ctx p (.pieceStates hash) w).2 := by
    refine ⟨exec_past _ hw.1, ?_⟩
    simp only [exec, perform, World.updateHistory, World.updatePlan_self]
    exact ⟨hw.2, _, rfl, Nat.lt_succ_of_le hw.1.1, Nat.lt_succ_of_le hw.1.2, rfl⟩
  have hfail : Within @KeepsDecision (fun _ => True) (.fail : Activity) := trivial
  rw [show (exec fromStr jsonValid ctx p (.pieceStates hash) w).1 = w.pieces from rfl]
  cases hinspect : inspectPieces (ctx p).plan.manifest (ctx p).plan.mappedOrdinals w.pieces with
  | error e => exact safeIn_observe_of_within hfail (hfetched.mono fun _ h => h.1)
  | ok integrity =>
    dsimp only
    unfold observedOf
    cases torrent.observed with
    | none => exact safeIn_observe_of_within hfail (hfetched.mono fun _ h => h.1)
    | some observed =>
      refine safeIn_decide hash observed hfetched fun htrue => ?_
      obtain ⟨hsafe, hallowed⟩ := Bool.and_eq_true_iff.mp htrue
      exact ⟨hsafe, integrity, torrent.amountLeft, hinspect, hsafe, hallowed⟩

theorem safeIn_observeFound (row : Option InjectionRow) (hash : String) (torrent : TorrentState)
    {w : World ι} (hw : At p (fun state => Backed (ctx p).plan state ∧ state.injection = row) w) :
    SafeIn fromStr jsonValid ctx p .observe (observeFound (ctx p) row hash torrent) w := by
  have hbacked : At p (Backed (ctx p).plan) w := hw.mono fun _ h => h.1
  unfold observeFound
  split
  · rename_i row' hrow'
    obtain ⟨rfl, hfinal⟩ := Option.filter_eq_some_iff.mp hrow'
    exact safeIn_verifyFinal row' hash torrent
      (hw.mono fun _ h => ⟨h.1, h.2, by simpa using hfinal⟩)
  · split
    · exact safeIn_observe_of_within (within_update_keepsDecision torrent (by decide)) hbacked
    · exact safeIn_observe_of_within (within_update_keepsDecision torrent (by decide)) hbacked
    · have hwaiting : Within @KeepsDecision (fun _ => True) (pure .waiting : Activity) := trivial
      exact safeIn_observe_of_within (within_bump_keepsDecision _ torrent hwaiting) hbacked
    · exact safeIn_inspect hash torrent hbacked

theorem safeIn_observe {w : World ι} (hw : At p (Backed (ctx p).plan) w) :
    SafeIn fromStr jsonValid ctx p .observe (observe (ctx p)) w := by
  refine safeIn_perform (P := Backed (ctx p).plan) (fun _ h => by exact h) hw (fun _ _ => trivial)
    fun w hw => ?_
  have hloaded : At p (fun state => Backed (ctx p).plan state ∧ state.injection =
    (w.plans p).injection)
      (exec fromStr jsonValid ctx p .load w).2 := ⟨exec_past .load hw.1, hw.2, rfl⟩
  split
  · exact safeIn_observe_fail _ (hloaded.mono fun _ h => h.1)
  split
  · have hfail : Within @KeepsDecision (fun _ => True) (.fail : Activity) := trivial
    exact safeIn_observe_of_within hfail (hloaded.mono fun _ h => h.1)
  rename_i hash _ _
  refine safeIn_perform (P := fun state => Backed (ctx p).plan state
    ∧ state.injection = (w.plans p).injection) (fun _ h => by exact h.1) hloaded
      (fun _ _ => trivial)
    fun w' hw' => ?_
  have hread : At p (fun state => Backed (ctx p).plan state ∧ state.injection =
    (w.plans p).injection)
      (exec fromStr jsonValid ctx p (.torrentState hash) w').2 :=
    ⟨exec_past (.torrentState hash) hw'.1, hw'.2⟩
  split
  · exact safeIn_observe_fail _ (hread.mono fun _ h => h.1)
  · exact safeIn_observeFound _ _ _ hread

/-! ### Runs -/

variable (fromStr jsonValid ctx p)

/-- The rely-guarantee proof of a plan. -/
def spec : Spec (machine fromStr jsonValid ctx) p where
  Rely _ := Same p
  Assume _ _ _ _ := True
  Inv phase := At p (Inv (ctx p).plan phase)
  Ok _ _ e w := Allowed ctx p e w
  Post phase result := At p (Inv (ctx p).plan (next phase result))
  rely_refl _ := Same.refl p
  rely_trans _ _ _ _ := Same.trans
  inv_rely _ _ _ := At.same
  inv_next _ _ _ h := h
  inv_giveUp phase phase' w hphase h := by
    cases phase <;> cases hphase <;> exact h.mono fun _ _ => trivial
  inv_again phase phase' w hphase h := by
    cases phase <;> cases hphase
    exact h.mono fun _ _ => trivial
  safe phase program w hprogram hw := by
    cases phase with
    | prepare => exact Option.some_inj.mp hprogram ▸ safeIn_prepare hw
    | materialize => exact Option.some_inj.mp hprogram ▸ safeIn_materialize hw
    | recheck => exact Option.some_inj.mp hprogram ▸ safeIn_recheck hw
    | observe => exact Option.some_inj.mp hprogram ▸ safeIn_observe hw
    | ended result => cases hprogram

variable {fromStr jsonValid ctx p}

theorem spec_holds_initial (db : Db) : (spec fromStr jsonValid ctx p).Holds (initial ι db) :=
  ⟨⟨le_rfl, le_rfl⟩, trivial⟩

/-- Every step is one that the proof allows: what others do leaves the rows of the plan alone. -/
theorem spec_allows (s : Injections ι) (a : Step ι) : (spec fromStr jsonValid ctx p).Allows s a :=
  ⟨fun _ _ _ _ _ => trivial, fun ha _ h => same_of_step h ha⟩

theorem along_of_forall {cond : Injections ι → Step ι → Prop} (hcond : ∀ s a, cond s a) :
    ∀ (steps : List (Step ι)) (s : Injections ι), Along (machine fromStr jsonValid ctx) cond s steps
  | [], _ => trivial
  | a :: steps, s => ⟨hcond s a, fun s' _ => along_of_forall hcond steps s'⟩

/-- **Single-plan start safety.** In every run, whenever a plan starts the torrent, its row has the
state `finalizing`, the decision to resume and the mark of safe pieces, and the decision rests on a
response that was fetched after the plan's last `force_recheck` and last materialisation. -/
theorem start_safe (db : Db) (steps : List (Step ι)) (s : Injections ι)
    (hrun : run (machine fromStr jsonValid ctx) (initial ι db) steps = some s)
    (p : ι) (hash : String) (hstart : starting s p = some hash) :
      MayStart (ctx p).plan (s.state.plans p) := by
  obtain ⟨k, hrunning⟩ := starting_eq_some hstart
  have hholds : (spec fromStr jsonValid ctx p).Holds s :=
    (spec_holds_initial db).run (along_of_forall spec_allows steps _) hrun
  exact hholds.ok hrunning

end

/-! ### A run -/

/-- A torrent with two files of one piece each. -/
def twoFiles : TorrentManifest where
  hashes := ⟨some 1, none⟩
  files := [⟨0, "a".toList, 1, false⟩, ⟨1, "b".toList, 1, false⟩]
  pieceLength := some 1
  pieceFiles := []

/-- The torrent of the two files in a state of qBittorrent. -/
def torrentIn (state : String) : TorrentState := ⟨"1", state, 1, some 500000, "/data", false⟩

/-- A plan that links some of the files and always resumes. -/
def planFor (ordinals : List ℕ) : InjectionPlan where
  manifest := twoFiles
  namespaceRelative := some "ab/cand"
  savePathRemote := "/data"
  resume := .always
  mappings := ordinals.map fun ordinal => ⟨ordinal, some "/src"⟩

instance neZero_two : NeZero 2 := ⟨by decide⟩

/-- Two plans of the candidate: the first one links one file, the second one both. -/
def twoPlans (p : Fin 2) : Context where
  plan := planFor (if p = 0 then [0] else [0, 1])
  candidateId := 1
  taskId := if p = 0 then 1 else 2
  detailJson := "null"
  configured := true

/-- An activity of a plan: its operations, and its result. -/
def execution (p : Fin 2) (operations : ℕ) : List (Step (Fin 2)) :=
  .begin p :: List.replicate operations (.act p) ++ [.finish p]

/-- The first plan is run up to the start of the torrent: one piece is missing, of the file that is
not linked. -/
def firstPlanStarts : List (Step (Fin 2)) :=
  [.env (.torrents fun _ => some (torrentIn "stoppedDL"))] ++ execution 0 6 ++ execution 0 5
    ++ execution 0 4 ++ [.env (.recheckDone 13 [2, 0])] ++ execution 0 3
    ++ .begin 0 :: List.replicate 4 (.act 0)

/-- The machine of the two plans, where every text is JSON. -/
def twoPlanMachine : Machine (Fin 2) (World (Fin 2)) EnvStep Phase StepResult Effect :=
  machine (fun _ => true) (fun _ => true) twoPlans

theorem start_safe_firstPlan :
    ∃ s, run twoPlanMachine (initial (Fin 2) .empty) firstPlanStarts = some s
      ∧ starting s 0 = some "0000000000000000000000000000000000000001"
      ∧ MayStart (twoPlans 0).plan (s.state.plans 0) := by
  obtain ⟨s, hrun⟩ := Option.isSome_iff_exists.mp (show
    (run twoPlanMachine (initial (Fin 2) .empty) firstPlanStarts).isSome = true by decide +kernel)
  have hstart : (run twoPlanMachine (initial (Fin 2) .empty) firstPlanStarts).bind (starting · 0)
      = some "0000000000000000000000000000000000000001" := by decide +kernel
  rw [hrun] at hstart
  exact ⟨s, hrun, hstart, start_safe _ _ _ hrun 0 _ hstart⟩

end Sporos.Service.StartSafety

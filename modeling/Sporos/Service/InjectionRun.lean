import Sporos.Lib.Processes
import Sporos.Service.Injection

/-! # Runs of injections

The injections of any number of plans of one candidate, as processes over one world: the rows of
each plan, the tables of the tasks and candidates, qBittorrent and the managed namespace. The
orchestration `run` of `injection.rs` gives the phases. An activity that crashes or fails is
executed again, until the engine gives up and the run ends with an error; a run that has ended may
be followed by another one.

qBittorrent and the file system answer what the world holds: the torrent of each hash, the piece
states of the last completed recheck, and the outcome of the materialiser. These change at any time.
The world also has a clock that counts the operations, and a history of each plan, which no activity
reads. -/

namespace Sporos.Service.InjectionRun

open Sporos.Model.Matching
open Sporos.Service.Tables
open Sporos.Service.TaskProjection
open Sporos.Service.Pieces
open Sporos.Service.Injection
open Sporos.Lib.Table
open Sporos.Lib.Program
open Sporos.Lib.Processes

/-! ### The world -/

/-- A response with piece states: its time, when the recheck it tells of was requested, and the
states. -/
structure Fetch where
  time : ℕ
  recheck : Option ℕ
  states : List ℕ
  deriving DecidableEq, Repr

/-- The times of the last `force_recheck` and of the last operation of the materialiser, the last
response with piece states, and the response that the last decision rests on. -/
structure History where
  rechecked : ℕ
  materialized : ℕ
  fetched : Option Fetch
  decided : Option Fetch
  deriving DecidableEq, Repr

/-- What belongs to one plan: its row of `sporos_injection`, the state of its row of
`sporos_injection_plan`, and its history. -/
structure PlanState where
  injection : Option InjectionRow
  state : String
  history : History
  deriving DecidableEq, Repr

/-- A plan that has not been run. -/
def PlanState.planned : PlanState := ⟨none, "planned", ⟨0, 0, none, none⟩⟩

/-- A hardlink in the namespace: the plan that made it, the file, and the time. -/
structure Link (ι : Type) where
  plan : ι
  ordinal : ℕ
  time : ℕ
  deriving DecidableEq, Repr

/-- What the injections share: the rows of the plans, the database, the clock, and qBittorrent. -/
structure World (ι : Type) where
  plans : ι → PlanState
  db : Db
  now : ℤ
  torrents : String → Option TorrentState
  pieces : List ℕ
  recheck : Option ℕ
  requests : List ℕ
  materializer : Option MaterializeError
  links : List (Link ι)
  clock : ℕ

section

variable {ι : Type} [DecidableEq ι]

/-- The rows of a plan are changed. -/
def World.updatePlan (w : World ι) (p : ι) (f : PlanState → PlanState) : World ι :=
  { w with plans := fun q => if q = p then f (w.plans q) else w.plans q }

/-- An `UPDATE` of the row of `sporos_injection`. -/
def World.updateInjection (w : World ι) (p : ι) (f : InjectionRow → InjectionRow) : World ι :=
  w.updatePlan p fun plan => { plan with injection := plan.injection.map f }

/-- A plan gets a state. -/
def World.setPlanState (w : World ι) (p : ι) (state : String) : World ι :=
  w.updatePlan p fun plan => { plan with state }

/-- What has happened to a plan is changed. -/
def World.updateHistory (w : World ι) (p : ι) (f : History → History) : World ι :=
  w.updatePlan p fun plan => { plan with history := f plan.history }

end

/-- The upsert of `record_injection`; an insert takes the defaults of the other columns. -/
def insertedRow (row : Option InjectionRow) (observed : Observed) (state : String) :
    InjectionRow where
  qbitState := observed.qbitState
  amountLeft := observed.amountLeft
  progressPpm := observed.progressPpm
  integritySafe := none
  resumeDecision := none
  state
  verificationAttempts := (row.map InjectionRow.verificationAttempts).getD 0

/-- The row of `record_resume_decision`. -/
def decidedRow (observed : Observed) (integritySafe resume : Bool)
    (row : InjectionRow) : InjectionRow :=
  { row.observe observed with
    integritySafe := some integritySafe
    resumeDecision := some (if resume then "resume" else "stop")
    state := "finalizing"
    verificationAttempts := 0 }

/-- The `UPDATE` of the state of a candidate. -/
def setCandidateState (db : Db) (candidateId : Id) (state : String) (now : ℤ) : Db :=
  let update := fun row : CandidateRow => { row with state, updatedAt := now }
  { db with candidates := updateKey CandidateRow.id db.candidates candidateId update }

/-! ### Operations -/

section

variable {ι : Type} [DecidableEq ι] (fromStr jsonValid : String → Bool) (ctx : ι → Context)

/-- One link of the materialiser. The link of a file that is there is kept. -/
def World.link (w : World ι) (p : ι) (ordinal : ℕ) : World ι :=
  if w.materializer.isSome ∨ ∃ link ∈ w.links, link.ordinal = ordinal then w
  else { w with links := ⟨p, ordinal, w.clock⟩ :: w.links }

/-- An operation of a plan at the present time. -/
def perform (p : ι) : {γ : Type} → Effect γ → World ι → γ × World ι
  | _, .load, w => ((w.plans p).injection, w)
  | _, .now, w => (w.now, w)
  | _, .validateContract, w => ((), w)
  | _, .ensureNamespace, w => ((), w)
  | _, .torrentState hash, w => (w.torrents hash, w)
  | _, .addStopped, w => ((), w)
  | _, .stop _, w => ((), w)
  | _, .start _, w => ((), w)
  | _, .forceRecheck _, w =>
    ((), { w with requests := w.clock :: w.requests }.updateHistory p
      fun history => { history with rechecked := w.clock })
  | _, .pieceStates _, w =>
    (w.pieces, w.updateHistory p
      fun history => { history with fetched := some ⟨w.clock, w.recheck, w.pieces⟩ })
  | _, .openRoots, w =>
    (w.materializer, w.updateHistory p fun history => { history with materialized := w.clock })
  | _, .link ordinal, w =>
    (w.materializer, (w.link p ordinal).updateHistory p
      fun history => { history with materialized := w.clock })
  | _, .insertInjection observed state, w =>
    ((), w.updatePlan p fun plan =>
      { plan with injection := some (insertedRow plan.injection observed state) })
  | _, .setPlanState state, w => ((), w.setPlanState p state)
  | _, .persistLinks complete, w =>
    let state := if complete then "links_complete" else "links_partial"
    ((), ((w.updateInjection p fun row => { row with state }).setPlanState p state).updateHistory p
      fun history => { history with materialized := w.clock })
  | _, .setInjectionState state, w => ((), w.updateInjection p fun row => { row with state })
  | _, .resetVerification, w =>
    ((), w.updateInjection p fun row => { row with verificationAttempts := 0 })
  | _, .updateObservation observed state, w =>
    ((), w.updateInjection p fun row => { row.observe observed with state })
  | _, .recordResumeDecision observed integritySafe resume, w =>
    ((), (w.updateInjection p (decidedRow observed integritySafe resume)).updateHistory p
      fun history => { history with decided := history.fetched })
  | _, .bumpVerification observed, w =>
    ((), w.updateInjection p fun row =>
      { row.observe observed with verificationAttempts := row.verificationAttempts + 1 })
  | _, .verificationAttempts, w => ((w.plans p).injection.map InjectionRow.verificationAttempts, w)
  | _, .completeInjection observed, w =>
    ((), w.updateInjection p fun row => { row.observe observed with state := "completed" })
  | _, .failInjection, w => ((), w.updateInjection p fun row => { row with state := "failed" })
  | _, .setCandidateState state now, w =>
    ((), { w with db := setCandidateState w.db (ctx p).candidateId state now })
  | _, .task, w => (w.db.task (ctx p).taskId, w)
  | _, .projectTask update, w =>
    -- A transaction that fails leaves the tables as they are.
    let result := projectTask fromStr jsonValid w.db update
    (result.map Prod.snd, { w with db := (result.map Prod.fst).toOption.getD w.db })

/-- The clock counts the operations. -/
def exec (p : ι) {γ : Type} (e : Effect γ) (w : World ι) : γ × World ι :=
  perform fromStr jsonValid ctx p e { w with clock := w.clock + 1 }

end

/-! ### Phases -/

/-- Where the orchestration of a plan is; it ends with a result or with an error. -/
inductive Phase where
  | prepare
  | materialize
  | recheck
  | observe
  | ended (result : Option StepResult)
  deriving DecidableEq, Repr

/-- What comes after the result of an activity. -/
def next : Phase → StepResult → Phase
  | .prepare, .ready => .materialize
  | .prepare, .waiting => .prepare
  | .materialize, .ready => .recheck
  | .materialize, .waiting => .ended none
  | .recheck, .ready => .observe
  | .recheck, .waiting => .observe
  | .observe, .ready => .ended none
  | .observe, .waiting => .observe
  | .ended result, _ => .ended result
  | _, .terminal state reasonCode => .ended (some (.terminal state reasonCode))

/-- The activity of a phase. -/
def activity (ctx : Context) : Phase → Option Activity
  | .prepare => some (prepare ctx)
  | .materialize => some (materialize ctx)
  | .recheck => some (recheck ctx)
  | .observe => some (observe ctx)
  | .ended _ => none

/-- An activity may be given up until it has ended. -/
def giveUp : Phase → Option Phase
  | .ended _ => none
  | _ => some (.ended none)

/-- Another run of the plan after one that has ended. -/
def again : Phase → Option Phase
  | .ended _ => some .prepare
  | _ => none

/-! ### The environment -/

/-- What changes without an activity: the torrents, the end of a recheck that was requested, the
file system, the time, and the tables of other workflows. -/
inductive EnvStep where
  | torrents (torrents : String → Option TorrentState)
  | recheckDone (request : ℕ) (pieces : List ℕ)
  | materializer (outcome : Option MaterializeError)
  | now (now : ℤ)
  | db (db : Db)

/-- What qBittorrent, the clock and the file system do. -/
def envStep {ι : Type} : EnvStep → World ι → Option (World ι)
  | .torrents torrents, w => some { w with torrents }
  | .recheckDone request pieces, w =>
    if request ∈ w.requests then some { w with recheck := some request, pieces } else none
  | .materializer outcome, w => some { w with materializer := outcome }
  | .now now, w => some { w with now }
  | .db db, w => some { w with db }

/-! ### The system -/

section

variable {ι : Type} [DecidableEq ι] (fromStr jsonValid : String → Bool) (ctx : ι → Context)

/-- The injections of the plans as processes. -/
def machine : Machine ι (World ι) EnvStep Phase StepResult Effect where
  exec := exec fromStr jsonValid ctx
  program p := activity (ctx p)
  next := next
  giveUp := giveUp
  again := again
  env := envStep

end

/-- The workflows of some plans. -/
abbrev Injections (ι : Type) := System ι (World ι) Phase StepResult Effect

/-- A step of a workflow, or of what is around. -/
abbrev Step (ι : Type) := Action ι EnvStep

/-- No plan has been run, and qBittorrent has answered nothing. -/
def World.initial (ι : Type) (db : Db) : World ι where
  plans _ := .planned
  db
  now := 0
  torrents _ := none
  pieces := []
  recheck := none
  requests := []
  materializer := none
  links := []
  clock := 0

/-- No workflow has begun. -/
def initial (ι : Type) (db : Db) : Injections ι := ⟨.initial ι db, fun _ => ⟨.prepare, none⟩⟩

/-- The hash that a plan is about to start. -/
def starting {ι : Type} (s : Injections ι) (p : ι) : Option String :=
  match (s.procs p).running with
  | some (.op (.start hash) _) => some hash
  | _ => none

theorem starting_eq_some {ι : Type} {s : Injections ι} {p : ι} {hash : String}
    (h : starting s p = some hash) : ∃ k, (s.procs p).running = some (.op (.start hash) k) := by
  unfold starting at h
  split at h
  · rename_i k hrunning
    obtain rfl := Option.some_inj.mp h
    exact ⟨k, hrunning⟩
  · cases h

/-! ### What a step leaves alone -/

section

variable {ι : Type}

@[simp]
theorem World.link_plans (w : World ι) (p : ι) (ordinal : ℕ) :
    (w.link p ordinal).plans = w.plans := by
  unfold World.link
  split_ifs <;> rfl

@[simp]
theorem World.link_clock (w : World ι) (p : ι) (ordinal : ℕ) :
    (w.link p ordinal).clock = w.clock := by
  unfold World.link
  split_ifs <;> rfl

theorem envStep_plans {e : EnvStep} {w w' : World ι} (h : envStep e w = some w') :
    w'.plans = w.plans ∧ w'.clock = w.clock ∧ w'.links = w.links := by
  cases e <;> simp only [envStep] at h
  case recheckDone request pieces =>
    split_ifs at h
    obtain rfl := Option.some_inj.mp h
    exact ⟨rfl, rfl, rfl⟩
  all_goals
    obtain rfl := Option.some_inj.mp h
    exact ⟨rfl, rfl, rfl⟩

/-- The rows of a plan are the same, and the clock has not gone back. -/
def Same (p : ι) (w w' : World ι) : Prop := w'.plans p = w.plans p ∧ w.clock ≤ w'.clock

theorem Same.refl (p : ι) (w : World ι) : Same p w w := ⟨rfl, le_rfl⟩

theorem Same.trans {p : ι} {w w' w'' : World ι} (h : Same p w w') (h' : Same p w' w'') :
    Same p w w'' := ⟨h'.1.trans h.1, h.2.trans h'.2⟩

end

section

variable {ι : Type} [DecidableEq ι] {fromStr jsonValid : String → Bool} {ctx : ι → Context}

@[simp]
theorem World.updatePlan_self (w : World ι) (p : ι) (f : PlanState → PlanState) :
    (w.updatePlan p f).plans p = f (w.plans p) := if_pos rfl

theorem exec_clock (p : ι) {γ : Type} (e : Effect γ) (w : World ι) :
    (exec fromStr jsonValid ctx p e w).2.clock = w.clock + 1 := by
  cases e <;> simp [exec, perform, World.updatePlan, World.updateHistory, World.updateInjection,
    World.setPlanState]

/-- An operation of a plan leaves the rows of the other plans alone. -/
theorem exec_plans_of_ne {p q : ι} (h : q ≠ p) {γ : Type} (e : Effect γ) (w : World ι) :
    (exec fromStr jsonValid ctx p e w).2.plans q = w.plans q := by
  cases e <;> simp [exec, perform, World.updatePlan, World.updateHistory, World.updateInjection,
    World.setPlanState, h]

/-- The world after a step: an operation of a plan, a change from outside, or no change. -/
theorem step_state {s s' : Injections ι} {a : Step ι}
    (h : step (machine fromStr jsonValid ctx) s a = some s') :
    (∃ p γ, ∃ (e : Effect γ) (k : γ → Activity), a = .act p ∧ (s.procs p).running = some (.op e k)
        ∧ s'.state = (exec fromStr jsonValid ctx p e s.state).2)
      ∨ (∃ e, a = .env e ∧ envStep e s.state = some s'.state)
      ∨ s'.state = s.state := by
  rcases step_cases h with ⟨p, γ, e, k, ha, hrunning, rfl⟩ | ⟨e, ha, hstate,
    -⟩ | ⟨p, proc, -, -, rfl⟩
  · exact .inl ⟨p, γ, e, k, ha, hrunning, rfl⟩
  · exact .inr (.inl ⟨e, ha, hstate⟩)
  · exact .inr (.inr rfl)

/-- A step that is no operation of a plan leaves its rows alone. -/
theorem same_of_step {s s' : Injections ι} {a : Step ι} {p : ι}
    (h : step (machine fromStr jsonValid ctx) s a = some s') (ha : a ≠ .act p) :
    Same p s.state s'.state := by
  rcases step_state h with ⟨q, γ, e, k, rfl, -, hstate⟩ | ⟨e, -, hstate⟩ | hstate
  · have hne : p ≠ q := fun hp => ha (hp ▸ rfl)
    rw [hstate]
    exact ⟨exec_plans_of_ne hne e s.state, by rw [exec_clock]; omega⟩
  · obtain ⟨hplans, hclock, -⟩ := envStep_plans hstate
    exact ⟨congrFun hplans p, hclock.ge⟩
  · rw [hstate]
    exact Same.refl p s.state

end

end Sporos.Service.InjectionRun

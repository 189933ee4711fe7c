import Sporos.Service.Selection

/-! # The evaluation of a candidate

`evaluate_candidate` of `candidate_workflow.rs`: the sources that are selected are split into those
that the matcher gets and those to wait for, the matcher decides, and the decision is stored with
its mappings and its plan, or the candidate waits. The requests of manifests are statements of the
loads; the templates of the category and of the tags of a plan, and the projection of the task after
the transaction, are not modelled. -/

namespace Sporos.Service.Evaluation

open Sporos.Model.Matching
open Sporos.Matcher.Release (Unicode)
open Sporos.Matcher.Evaluate
open Sporos.Matcher.Files (validateManifest)
open Sporos.Service.Tables
open Sporos.Service.Ingress
open Sporos.Service.Selection
open Sporos.Lib.Table
open Sporos.Lib.Loop
open Sporos.Lib.Lists

/-! ### Decisions -/

/-- What an evaluation comes to. -/
inductive Verdict where
  | waiting (delayMs : ℕ) (sourceIds : List Id)
  | terminal (decision : MatchDecision)
  deriving DecidableEq, Repr

/-- `RECONCILE_INTERVAL`, in milliseconds. -/
def reconcileInterval : ℕ := 300000

/-- `LoadedCandidate::deadline`. -/
def deadline (loaded : LoadedCandidate) : Except EvaluationError ℤ :=
  if loaded.policy.pendingSourceTimeoutMs > i64Max then .error (.range "pending source timeout")
  else .ok (min (loaded.createdAt + loaded.policy.pendingSourceTimeoutMs) i64Max)

/-- `rejected_source_timeout`. -/
def rejectedSourceTimeout (decision : MatchDecision) : MatchDecision :=
  { decision with outcome := .rejected, reason := .noPlausibleSource }

/-- `matcher_budget_rejection`. -/
def matcherBudgetRejection (loaded : LoadedCandidate) : MatchDecision where
  outcome := .rejected
  mode := none
  reason := .matcherBudgetExceeded
  sourceIds := []
  mappings := []
  mappedBytes := 0
  missingBytes := sumU64 ((loaded.manifest.files.filter fun file =>
    !file.padding).map TorrentFile.size)
  presentRatio := 0
  requiresRecheck := false
  evidence :=
    { candidateFiles := candidateFileCount loaded.manifest
      requiredFiles := 0
      primaryFiles := 0
      mappedFiles := 0
      mappedPrimaryFiles := 0
      mappedPrimaryBytes := 0
      exactPathMappings := 0
      compatibleSources := 0
      qbitSources := 0 }

/-- The matcher gets the source. -/
def usable (candidate : TorrentManifest) (source : LoadedSource) : Bool :=
  source.complete && (source.manifestLoaded || sameIdentity candidate source.manifest)

/-- What the matcher is asked. -/
def matchRequest (loaded : LoadedCandidate) (sources : List LoadedSource) : MatchRequest where
  candidate := loaded.manifest
  candidateRelease := loaded.release
  sources := (sources.filter (usable loaded.manifest)).map LoadedSource.manifest
  policy := loaded.policy.matching

/-- The sources to wait for, in order and each once. -/
def waitingIds (loaded : LoadedCandidate) (sources : List LoadedSource) : List Id :=
  (((sources.filter fun source => !usable loaded.manifest source).map fun source =>
    source.manifest.id).insertionSort (ByKey BitVec.toNat)).destutter (· ≠ ·)

/-- The decision about the sources that were loaded. -/
def decideSources (U : Unicode) (loaded : LoadedCandidate) (sources : List LoadedSource) (now : ℤ) :
    Except EvaluationError Verdict :=
  let decision := evaluate U (matchRequest loaded sources)
  if decision.outcome = .noMatch ∧ waitingIds loaded sources ≠ [] then do
    let deadline ← deadline loaded
    if now < deadline then
      return .waiting (min (min (deadline - now) i64Max).toNat reconcileInterval)
        (waitingIds loaded sources)
    else return .terminal (rejectedSourceTimeout decision)
  else .ok (.terminal decision)

/-- The decision of `evaluate_candidate`. -/
def decideCandidate (U : Unicode) (loaded : LoadedCandidate) (reads : Reads) (now : ℤ) :
    Except EvaluationError Verdict := do
  match ← candidateSources loaded reads with
  | .budgetExceeded => return .terminal (matcherBudgetRejection loaded)
  | .loaded sources => decideSources U loaded sources now

/-! ### Tables -/

/-- A row of `sporos_match`. -/
structure MatchRow where
  id : Id
  candidateId : Id
  mode : Option String
  outcome : String
  reasonCode : String
  mappedBytes : ℕ
  missingBytes : ℕ
  presentRatioPpm : ℕ
  decisionDigest : Digest
  createdAt : ℤ
  deriving DecidableEq, Repr

/-- A row of `sporos_file_mapping`. -/
structure MappingRow where
  matchId : Id
  candidateOrdinal : ℕ
  sourceId : Id
  sourceFileId : ℕ
  candidatePath : Str
  size : ℕ
  score : ℕ
  deriving DecidableEq, Repr

/-- The primary key of a mapping. -/
def MappingRow.key (row : MappingRow) : Id × ℕ := (row.matchId, row.candidateOrdinal)

/-- A row of `sporos_injection_plan`. -/
structure PlanRow where
  id : Id
  matchId : Id
  candidateId : Id
  planDigest : Digest
  state : String
  createdAt : ℤ
  deriving DecidableEq, Repr

/-- A row of `sporos_waiting_source`. -/
structure WaitingRow where
  candidateTaskId : Id
  sourceId : Id
  createdAt : ℤ
  deriving DecidableEq, Repr

/-- The columns of `sporos_candidate` that an evaluation updates. -/
structure CandidateStateRow where
  id : Id
  state : String
  updatedAt : ℤ
  deriving DecidableEq, Repr

/-- The tables that evaluations write. -/
structure MatchTables where
  decisions : List MatchRow
  mappings : List MappingRow
  plans : List PlanRow
  waiting : List WaitingRow
  candidates : List CandidateStateRow
  deriving DecidableEq, Repr

/-- The tables before the first evaluation. -/
def MatchTables.initial (candidates : List CandidateStateRow) : MatchTables :=
  ⟨[], [], [], [], candidates⟩

/-- The input of the workflow of a candidate. -/
structure CandidateInput where
  candidateId : Id
  taskId : Id
  policySnapshotId : Id
  deriving DecidableEq, Repr

/-- The character tables, SHA-256 and the encoders of JSON: of a decision, and of what a plan is
made from. -/
structure EvaluationCodec where
  unicode : Unicode
  sha256 : Bytes → Digest
  decisionJson : MatchDecision → String
  planJson : LoadedCandidate → Id → MatchDecision → String

/-- What the evaluation of a candidate answers. -/
inductive EvaluationResult where
  | waiting (delayMs : ℕ) (sourceIds : List Id)
  | terminal (state reasonCode : String) (matchId : Id) (planId : Option Id)
  deriving DecidableEq, Repr

/-- The code of an outcome. -/
def outcomeCode : MatchOutcome → String
  | .matched => "match"
  | .noMatch => "no_match"
  | .alreadyPresent => "already_present"
  | .rejected => "rejected"

/-- The code of a mode. -/
def modeCode : MatchMode → String
  | .strict => "strict"
  | .flexible => "flexible"
  | .partialMatch => "partial"
  | .seasonFromEpisodes => "season_from_episodes"

/-- The code of a reason. -/
def reasonCode : MatchReason → String
  | .matchStrict => "match_strict"
  | .matchFlexible => "match_flexible"
  | .matchPartial => "match_partial"
  | .matchSeasonFromEpisodes => "match_season_from_episodes"
  | .alreadyPresent => "already_present"
  | .noPlausibleSource => "no_plausible_source"
  | .mediaTypeConflict => "media_type_conflict"
  | .titleConflict => "title_conflict"
  | .yearConflict => "year_conflict"
  | .seriesConflict => "series_conflict"
  | .seasonConflict => "season_conflict"
  | .episodeConflict => "episode_conflict"
  | .dateConflict => "date_conflict"
  | .noPrimaryVideoOverlap => "no_primary_video_overlap"
  | .fileSizeConflict => "file_size_conflict"
  | .ambiguousFileMapping => "ambiguous_file_mapping"
  | .unsupportedTorrent => "unsupported_torrent"
  | .unsafeTorrentPath => "unsafe_torrent_path"
  | .hardlinkDeviceMismatch => "hardlink_device_mismatch"
  | .matcherBudgetExceeded => "matcher_budget_exceeded"

/-- `terminal_state`. -/
def terminalState (decision : MatchDecision) (dryRun : Bool) : String :=
  match decision.outcome with
  | .matched => if dryRun then "dry_run_complete" else "planned"
  | .alreadyPresent => "already_present"
  | .noMatch => "rejected"
  | .rejected => "rejected"

section

variable (codec : EvaluationCodec)

/-- The hash of a decision as JSON. -/
def decisionDigest (decision : MatchDecision) : Digest :=
  codec.sha256 (utf8 (codec.decisionJson decision))

/-- The id of a decision about a candidate. -/
def matchId (input : CandidateInput) (loaded : LoadedCandidate) (decision : MatchDecision) : Id :=
  first16 (codec.sha256 (utf8 "candidate-match-v1:" ++ idBytes loaded.id
    ++ idBytes input.policySnapshotId
    ++ TaskControl.digestBytes (decisionDigest codec decision)))

/-- The row of a decision. -/
def matchRow (input : CandidateInput) (loaded : LoadedCandidate)
    (decision : MatchDecision) (now : ℤ) : MatchRow where
  id := matchId codec input loaded decision
  candidateId := input.candidateId
  mode := decision.mode.map modeCode
  outcome := outcomeCode decision.outcome
  reasonCode := reasonCode decision.reason
  mappedBytes := decision.mappedBytes
  missingBytes := decision.missingBytes
  presentRatioPpm := decision.presentRatio
  decisionDigest := decisionDigest codec decision
  createdAt := now

/-- The row of a mapping. -/
def mappingRow (matchId : Id) (mapping : FileMapping) : MappingRow where
  matchId
  candidateOrdinal := mapping.candidateOrdinal
  sourceId := mapping.sourceId
  sourceFileId := mapping.sourceFileId
  candidatePath := mapping.candidatePath
  size := mapping.size
  score := mapping.score

/-- A number that has to be an integer of a column. -/
def toI64 (value : ℕ) (field : String) : Except EvaluationError ℕ :=
  if value > i64Max then .error (.range field) else .ok value

/-- One row of `sporos_file_mapping`, unless it is there. -/
def persistMapping (matchId : Id) (rows : List MappingRow) (mapping : FileMapping) :
    Except EvaluationError (List MappingRow) := do
  let _ ← toI64 mapping.sourceFileId "source file ID"
  let _ ← toI64 mapping.size "mapping size"
  return insertOrIgnore MappingRow.key rows (mappingRow matchId mapping)

/-- `persist_plan`. -/
def persistPlan (plans : List PlanRow) (input : CandidateInput) (loaded : LoadedCandidate)
    (decision : MatchDecision) (matchId : Id) (now : ℤ) :
      Except EvaluationError (List PlanRow × Id) :=
  let planDigest := codec.sha256 (utf8 (codec.planJson loaded matchId decision))
  let plans := insertOrIgnore PlanRow.id plans
    { id := first16 planDigest
      matchId
      candidateId := input.candidateId
      planDigest
      state := if loaded.policy.dryRun then "dry_run_complete" else "planned"
      createdAt := now }
  if (lookup PlanRow.id plans (first16 planDigest)).map PlanRow.planDigest = some planDigest then
    .ok (plans, first16 planDigest)
  else .error .planCollision

/-- The transaction of `persist_terminal`. -/
def persistTerminal (tables : MatchTables) (input : CandidateInput) (loaded : LoadedCandidate)
    (decision : MatchDecision) (now : ℤ) :
      Except EvaluationError (MatchTables × EvaluationResult) := do
  let _ ← toI64 decision.mappedBytes "mapped bytes"
  let _ ← toI64 decision.missingBytes "missing bytes"
  let row := matchRow codec input loaded decision now
  let decisions := insertOrIgnore MatchRow.id tables.decisions row
  if (lookup MatchRow.id decisions row.id).map MatchRow.decisionDigest ≠
      some row.decisionDigest then
    throw .matchCollision
  let mappings ← decision.mappings.foldlM (persistMapping row.id) tables.mappings
  let state := terminalState decision loaded.policy.dryRun
  let waiting := tables.waiting.filter fun waiting => waiting.candidateTaskId ≠ input.taskId
  let candidates := updateKey CandidateStateRow.id tables.candidates input.candidateId
      fun candidate =>
    { candidate with state, updatedAt := now }
  if decision.outcome = .matched then
    let (plans, planId) ← persistPlan codec tables.plans input loaded decision row.id now
    return (⟨decisions, mappings, plans, waiting, candidates⟩,
      .terminal state row.reasonCode row.id (some planId))
  else
    return (⟨decisions, mappings, tables.plans, waiting, candidates⟩,
      .terminal state row.reasonCode row.id none)

/-- `persist_waiting`. -/
def persistWaiting (tables : MatchTables) (input : CandidateInput) (sourceIds : List Id) (now : ℤ) :
    MatchTables :=
  { tables with waiting :=
      (tables.waiting.filter fun waiting => waiting.candidateTaskId ≠ input.taskId)
        ++ sourceIds.map fun sourceId => ⟨input.taskId, sourceId, now⟩ }

/-- `evaluate_candidate`. -/
def evaluateCandidate (tables : MatchTables) (input : CandidateInput) (loaded : LoadedCandidate)
    (reads : Reads) (now : ℤ) : Except EvaluationError (MatchTables × EvaluationResult) := do
  match ← decideCandidate codec.unicode loaded reads now with
  | .waiting delayMs sourceIds =>
    return (persistWaiting tables input sourceIds now, .waiting delayMs sourceIds)
  | .terminal decision => persistTerminal codec tables input loaded decision now

end

end Sporos.Service.Evaluation

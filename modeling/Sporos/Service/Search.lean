import Sporos.Service.Writers

/-! # Searches

`SearchExecutor::execute` of `search.rs` with `claim_indexer`, `dependency_error`, `summarize`,
`wait` and `finish`, and the delay of `retry.rs`.

What the database reads before the search, Prowlarr, the downloads and the ingress answer is an
`Answers`. With it an execution is the list of its writes (`executeWrites`), each a statement or a
transaction of its own; one that is cut off anywhere has made the first ones. The sources of the
errors and their texts come from other crates. -/

namespace Sporos.Service.Search

open Sporos.Model.Matching
open Sporos.Matcher.Release
open Sporos.Service.Tables Sporos.Service.Ingress Sporos.Service.Writers
open Sporos.Service.TaskControl (generationBytes)
open Sporos.Lib.Table

/-! ### Numbers and delays -/

/-- An `i64`. -/
abbrev I64 := { n : ℤ // -(2 ^ 63) ≤ n ∧ n ≤ i64Max }

/-- `saturating_add` of a number of milliseconds that is not negative. -/
def I64.saturatingAdd (now : I64) (ms : ℕ) : I64 :=
  ⟨min (now.val + ms) i64Max, by
    have h := now.property
    have hmax : -(2 ^ 63 : ℤ) ≤ i64Max := by decide
    exact ⟨le_min (by omega) hmax, min_le_right _ _⟩⟩

/-- `max` of two times. -/
def I64.later (a b : I64) : I64 := if a.val ≤ b.val then b else a

/-- `to_le_bytes` of an `i64`. -/
def I64.leBytes (n : I64) : Bytes :=
  (List.range 8).map fun i => (n.val % 2 ^ 64 / 2 ^ (8 * i) % 256).toNat.toUInt8

/-- `MIN_REQUEST_GAP_MS`. -/
def minRequestGapMs : ℕ := 1000

/-- The durations are in nanoseconds. -/
def retryBase : ℕ := 1000000000
/-- The longest delay, in nanoseconds. -/
def retryMax : ℕ := 5 * 60 * 1000000000
/-- The part of a delay that is spread. -/
def jitterPercent : ℕ := 20

/-- `mix`. -/
def mix (value : UInt64) : UInt64 :=
  let value := value + 0x9e3779b97f4a7c15
  let value := (value ^^^ (value >>> 30)) * 0xbf58476d1ce4e5b9
  let value := (value ^^^ (value >>> 27)) * 0x94d049bb133111eb
  value ^^^ (value >>> 31)

/-- The seed of a key, with a zero after each part. -/
def seed (key : List Bytes) : UInt64 :=
  key.foldl (fun seed part =>
    (part ++ [0]).foldl (fun seed byte => (seed ^^^ byte.toUInt64) * 0x100000001b3) seed)
      0xcbf29ce484222325

/-- `deterministic` of `retry.rs`. -/
def deterministic (base maximum attempt : ℕ) (key : List Bytes) : ℕ :=
  let delay := min (base * 2 ^ min (attempt - 1) 31) maximum
  let random := (mix (seed key ^^^ attempt.toUInt64)).toNat
  let window := delay * jitterPercent / 100
  delay - window + window * random / u64Max

/-! ### Rows -/

/-- A row of `sporos_indexer`. -/
structure IndexerRow where
  prowlarrId : I64
  name : String
  priority : ℤ
  eligible : Bool
  deriving DecidableEq, Repr

/-- A row of `sporos_search_attempt`. -/
structure AttemptRow where
  id : Id
  sourceId : Id
  indexerId : I64
  queryFingerprint : Digest
  policySnapshotId : Id
  trigger : String
  state : String
  resultsSeen : ℕ
  resultsDownloaded : ℕ
  nextEligibleAt : Option I64
  reasonCode : Option String
  createdAt : ℤ
  completedAt : Option ℤ
  taskId : Option Id
  dependencyAttempts : ℕ
  deriving DecidableEq, Repr

/-- A row of `sporos_indexer_rate_limit`. -/
structure RateLimitRow where
  indexerId : I64
  nextEligibleAt : I64
  updatedAt : I64
  deriving DecidableEq, Repr

/-- A row of `sporos_search_result_summary`. -/
structure SummaryRow where
  searchAttemptId : Id
  ordinal : ℕ
  fingerprint : Digest
  title : String
  size : Option ℕ
  state : String
  candidateId : Option Id
  deriving DecidableEq, Repr

/-- The primary key of a summary. -/
def SummaryRow.key (row : SummaryRow) : Id × ℕ := (row.searchAttemptId, row.ordinal)

/-- The tables of the search, with those of the tasks. -/
structure SearchDb where
  db : Db
  indexers : List IndexerRow
  attempts : List AttemptRow
  rateLimits : List RateLimitRow
  summaries : List SummaryRow
  deriving DecidableEq, Repr

/-- Update the row of an attempt. -/
def SearchDb.updateAttempt (s : SearchDb) (id : Id) (f : AttemptRow → AttemptRow) : SearchDb :=
  { s with attempts := updateKey AttemptRow.id s.attempts id f }

/-! ### Inputs, results and errors -/

/-- The input of a search workflow. -/
structure SearchInput where
  taskId : Id
  attemptId : Id
  sourceId : Id
  indexerId : I64
  policySnapshotId : Id
  trigger : String
  deriving DecidableEq, Repr

/-- What a search answers. -/
inductive SearchOutcome where
  | complete
  | waiting (nextEligibleAt : I64) (delayMs : ℕ)
  | failed (reason : String)
  deriving DecidableEq, Repr

/-- A result of a search. -/
structure TorznabResult where
  title : String
  guid : Option String
  downloadUrl : String
  size : Option ℕ
  deriving DecidableEq, Repr

/-- The source that a search is for. -/
structure SearchSource where
  release : ReleaseDescriptor
  totalSize : ℕ
  indexerName : String

/-- Why a request to the indexer fails. -/
inductive ProwlarrError where
  | invalidApiKey
  | client
  | request
  | httpStatus (status : ℕ)
  | rateLimited (retryAfter : Option ℕ)
  | responseTooLarge
  | malformed
  | malformedField
  | unknownTag
  | ambiguousTag
  | unsafeDownloadUrl
  | redirectRejected
  | torznab
  | database
  | json
  deriving DecidableEq, Repr

/-- Why a search fails. -/
inductive SearchError where
  | database
  | json
  | prowlarr (error : ProwlarrError)
  | candidate (error : CandidateError)
  | durableIngress (error : DurableIngressError)
  | sourceUnavailable
  | invalidStoredId
  | storedRange
  deriving DecidableEq, Repr

/-- A server error, a timeout or too many requests. -/
def retryableStatus (status : ℕ) : Bool :=
  (500 ≤ status ∧ status ≤ 599) ∨ status = 408 ∨ status = 429

/-- An error after which the request may be made again. -/
def retryableProwlarr : ProwlarrError → Bool
  | .request | .rateLimited _ | .database => true
  | .httpStatus status => retryableStatus status
  | _ => false

/-- The torrent itself is not acceptable. -/
def candidateRejected : CandidateError → Bool
  | .torrentTooLarge | .tooManyFiles | .pathTooLong | .invalidUtf8Name | .invalidUtf8Path
  | .torrent => true
  | _ => false

/-- `plausibility`: why a result is not looked at, if so. -/
def plausibility (U : Unicode) (source : SearchSource) (result : TorznabResult) :
    Except String Unit :=
  if result.size = some 0 then .error "empty_result"
  else if result.size.any (· < source.totalSize / 20) then .error "result_too_small"
  else
    let candidate := parseRelease U result.title.toList
    if candidate.primaryTitle ≠ source.release.primaryTitle then .error "title_mismatch"
    else if candidate.year.isSome ∧ source.release.year.isSome
        ∧ candidate.year ≠ source.release.year then
      .error "year_mismatch"
    else .ok ()

/-- What a result is told apart by. -/
def resultFingerprint (sha256 : Bytes → Digest) (result : TorznabResult) : Digest :=
  sha256 (utf8 result.title ++ [0] ++ utf8 (result.guid.getD "")
    ++ generationBytes (result.size.getD 0))

/-! ### The rate limit -/

/-- `claim_indexer`: a transaction that postpones the next search, unless it is not yet time for
this one. -/
def claimIndexer (s : SearchDb) (indexerId now : I64) :
    Except SearchError (SearchDb × Option I64) :=
  match lookup RateLimitRow.indexerId s.rateLimits indexerId with
  | some row =>
    if row.nextEligibleAt.val > now.val then .ok (s, some row.nextEligibleAt)
    else
      .ok ({ s with
        rateLimits := upsert RateLimitRow.indexerId s.rateLimits
          ⟨indexerId, now.saturatingAdd minRequestGapMs, now⟩ fun row =>
            { row with nextEligibleAt := now.saturatingAdd minRequestGapMs, updatedAt := now } },
              none)
  | none =>
    -- The row refers to the indexer.
    if (lookup IndexerRow.prowlarrId s.indexers indexerId).isNone then .error .database
    else
      .ok ({ s with
        rateLimits := upsert RateLimitRow.indexerId s.rateLimits
          ⟨indexerId, now.saturatingAdd minRequestGapMs, now⟩ fun row =>
            { row with nextEligibleAt := now.saturatingAdd minRequestGapMs, updatedAt := now } },
              none)

/-- The delay after an error, in milliseconds; a permanent error has none. -/
def errorDelay (input : SearchInput) (attempt : ℕ) (error : ProwlarrError) : Option ℕ :=
  let calculated :=
    deterministic retryBase retryMax attempt [idBytes input.attemptId,
      input.indexerId.leBytes] / 1000000
  match error with
  | .rateLimited retryAfter =>
    some (((retryAfter.map (· / 1000000)).filter (· ≤ i64Max)).elim calculated (max · calculated))
  | .request => some calculated
  | .httpStatus status => if retryableStatus status then some calculated else none
  | _ => none

/-- When a search may be tried again after a delay. -/
def postponed (now : I64) (delay : ℕ) : I64 := now.saturatingAdd (max delay minRequestGapMs)

/-! ### Writes -/

/-- The statements of an execution. -/
inductive Write where
  | claim (now : I64)
  | searchingTask (now : I64)
  | searchingAttempt
  | postpone (next now : I64)
  | waitAttempt (next : I64) (reason : String)
  | waitTask (reason : String) (now : I64)
  | summarize (ordinal : ℕ) (result : TorznabResult) (state : String) (candidateId : Option Id)
  | accept (submission : CandidateSubmission)
  | finishAttempt (now : I64) (reason : String) (failed : Bool) (seen downloaded : ℕ)
  | finishTask (now : I64) (reason : String) (failed : Bool)
  deriving DecidableEq, Repr

section

variable (codec : Codec) (config : IngressConfig)

/-- `summarize`. The row refers to the attempt, and to the candidate if it has one. -/
def summarize (s : SearchDb) (attemptId : Id) (ordinal : ℕ)
    (result : TorznabResult) (state : String) (candidateId : Option Id) :
      Except SearchError SearchDb :=
  if (lookup AttemptRow.id s.attempts attemptId).isNone
      ∨ candidateId.any (fun id => (lookup CandidateRow.id s.db.candidates id).isNone)
        then .error .database
  else
    .ok { s with
      summaries := upsert SummaryRow.key s.summaries
        ⟨attemptId, ordinal, resultFingerprint codec.sha256 result, result.title,
          result.size.filter (· ≤ i64Max), state, candidateId⟩
        fun row => { row with state, candidateId := candidateId.or row.candidateId } }

/-- The tables after a statement. -/
def Write.apply (input : SearchInput) (s : SearchDb) : Write → Except SearchError SearchDb
  | .claim now => (claimIndexer s input.indexerId now).map Prod.fst
  | .searchingTask now => .ok { s with db := markSearching s.db input.taskId now.val }
  | .searchingAttempt => .ok (s.updateAttempt input.attemptId fun row =>
    { row with state := "searching" })
  | .postpone next now =>
    if (lookup IndexerRow.prowlarrId s.indexers input.indexerId).isNone then .error .database
    else
      .ok { s with
        rateLimits := upsert RateLimitRow.indexerId s.rateLimits ⟨input.indexerId,
            next, now⟩ fun row =>
          { row with nextEligibleAt := row.nextEligibleAt.later next, updatedAt := now } }
  | .waitAttempt next reason =>
    .ok (s.updateAttempt input.attemptId fun row =>
      { row with
        state := "waiting"
        nextEligibleAt := some next
        reasonCode := some reason
        dependencyAttempts := row.dependencyAttempts + 1 })
  | .waitTask reason now => .ok { s with db := Writers.wait s.db input.taskId reason now.val }
  | .summarize ordinal result state candidateId =>
    Search.summarize codec s input.attemptId ordinal result state candidateId
  | .accept submission =>
    match acceptCandidate codec config s.db submission with
    | .ok (db, _) => .ok { s with db }
    | .error error => .error (.candidate error)
  | .finishAttempt now reason failed seen downloaded =>
    .ok (s.updateAttempt input.attemptId fun row =>
      { row with
        state := finishedState failed
        resultsSeen := max row.resultsSeen seen
        resultsDownloaded := max row.resultsDownloaded downloaded
        nextEligibleAt := none
        reasonCode := some reason
        completedAt := some now.val })
  | .finishTask now reason failed =>
    .ok { s with db := searchFinish s.db input.taskId now.val reason failed }

end

/-! ### Executions -/

/-- The two statements of `wait`. -/
def waitWrites (next : I64) (reason : String) (clock : I64) : List Write :=
  [.waitAttempt next reason, .waitTask reason clock]

/-- The two statements of `finish`. -/
def finishWrites (now : I64) (reason : String) (failed : Bool) (seen downloaded : ℕ) : List Write :=
  [.finishAttempt now reason failed seen downloaded, .finishTask now reason failed]

/-- `dependency_error`, where `attempts` has been read from the attempt and `clock` is the time of
the task. The count is of 32 bits. -/
def dependencyWrites (message : ProwlarrError → String) (input : SearchInput)
    (now clock : I64) (attempts : ℕ) (error : ProwlarrError) :
      List Write × Except SearchError SearchOutcome :=
  if 2 ^ 32 ≤ attempts then ([], .error .storedRange)
  else
    match errorDelay input (min (attempts + 1) (2 ^ 32 - 1)) error with
    | none => (finishWrites now "invalid_search_response" true 0 0, .ok (.failed (message error)))
    | some delay =>
      let next := postponed now delay
      (.postpone next now :: waitWrites next "dependency_unavailable" clock,
        .ok (.waiting next (next.val - now.val).toNat))

/-- A result of the search, with what its download and the ingress answer. -/
structure Answer where
  result : TorznabResult
  download : Except ProwlarrError Bytes
  accepted : Except CandidateError Id

/-- What an execution is answered. -/
structure Answers where
  source : Option SearchSource
  query : Bool
  claimed : Option I64
  results : Except ProwlarrError (List Answer)
  attempts : ℕ
  clock : I64

/-- How the loop goes on after a result. -/
inductive Next where
  | proceed (downloaded : Bool)
  | dependency (error : ProwlarrError)
  | stop (error : SearchError)

/-- The candidate that a result is handed in as. -/
def submission (input : SearchInput) (now : I64) (source : SearchSource) (ordinal : ℕ)
    (result : TorznabResult) (bytes : Bytes) : CandidateSubmission where
  bytes
  announcementName := some result.title
  indexer := some source.indexerName
  indexerId := some input.indexerId.val
  trigger := input.trigger
  releaseHint := some source.release
  category := none
  tags := []
  requestId := "search:" ++ encodeHex input.attemptId ++ ":" ++ toString ordinal
  dryRun := false
  receivedAt := now.val

section

variable (U : Unicode) (message : ProwlarrError → String) (input : SearchInput) (now : I64)

/-- The body of the loop over the results. -/
def resultWrites (source : SearchSource) (ordinal : ℕ) (answer : Answer) : List Write × Next :=
  match plausibility U source answer.result with
  | .error _ => ([.summarize ordinal answer.result "filtered" none], .proceed false)
  | .ok () =>
    let eligible := Write.summarize ordinal answer.result "eligible" none
    match answer.download with
    | .error .unsafeDownloadUrl | .error .redirectRejected =>
      ([eligible, .summarize ordinal answer.result "unsafe_download" none], .proceed false)
    | .error error =>
      if retryableProwlarr error then ([eligible], .dependency error)
      else ([eligible, .summarize ordinal answer.result "download_failed" none], .proceed false)
    | .ok bytes =>
      match answer.accepted with
      | .ok candidateId =>
        ([eligible, .accept (submission input now source ordinal answer.result bytes),
          .summarize ordinal answer.result "candidate_accepted" (some candidateId)], .proceed true)
      | .error error =>
        if candidateRejected error then
          ([eligible, .summarize ordinal answer.result "invalid_torrent" none], .proceed false)
        else ([eligible], .stop (.candidate error))

/-- The loop over the results from an ordinal on, after a number of downloads. -/
def loopWrites (source : SearchSource) (clock : I64) (attempts : ℕ) :
    ℕ → ℕ → List Answer → List Write × Except SearchError SearchOutcome
  | ordinal, downloaded, [] =>
      (finishWrites now "completed" false ordinal downloaded, .ok .complete)
  | ordinal, downloaded, answer :: answers =>
    let (writes, next) := resultWrites U input now source ordinal answer
    match next with
    | .proceed accepted =>
      let (rest, outcome) :=
        loopWrites source clock attempts (ordinal + 1) (if accepted then downloaded + 1
          else downloaded) answers
      (writes ++ rest, outcome)
    | .dependency error =>
      let (rest, outcome) := dependencyWrites message input now clock attempts error
      (writes ++ rest, outcome)
    | .stop error => (writes, .error error)

/-- The writes of `execute`, and what it returns after them. -/
def executeWrites (answers : Answers) : List Write × Except SearchError SearchOutcome :=
  match answers.source with
  | none => (finishWrites now "source_unavailable" true 0 0, .ok (.failed "source_unavailable"))
  | some source =>
    if !answers.query then (finishWrites now "indexer_ineligible" true 0 0,
      .ok (.failed "indexer_ineligible"))
    else
      match answers.claimed with
      | some next =>
        (.claim now :: waitWrites next "indexer_rate_limit" answers.clock,
          .ok (.waiting next (next.val - now.val).toNat))
      | none =>
        let (writes, outcome) :=
          match answers.results with
          | .error error => dependencyWrites message input now answers.clock answers.attempts error
          | .ok results => loopWrites U message input now source answers.clock
            answers.attempts 0 0 results
        (.claim now :: .searchingTask now :: .searchingAttempt :: writes, outcome)

end

end Sporos.Service.Search

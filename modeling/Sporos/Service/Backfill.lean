import Sporos.Lib.Paging
import Sporos.Service.Completion
import Sporos.Service.ForcedOperations
import Sporos.Service.Search

/-! # Backfills

`backfill_workflow` and `produce_page` of `search.rs`, with `eligible_indexers`, `backfill_selected`
and `accept_in`. A page has the torrents after a cursor, in the order of their identifiers; those
that the request selects are accepted for every indexer, in one transaction with the count of the
operation. The column `operation_id` of the tasks, which no statement reads, is not modelled. -/

namespace Sporos.Service.Backfill

open Sporos.Model.Matching
open Sporos.Service.Tables
open Sporos.Service.Ingress
open Sporos.Service.Sources
open Sporos.Service.Search
open Sporos.Service.ForcedOperations (BackfillSelection BackfillInput)
open Sporos.Lib.Table
open Sporos.Lib.Lists
open Sporos.Lib.Paging

/-! ### Tables -/

/-- SHA-256, `json_valid`, and the decoders and encoders of `serde_json`. -/
structure BackfillCodec (Policy : Type) where
  sha256 : Bytes → Digest
  jsonValid : String → Bool
  decodePolicy : String → Option Policy
  policyJson : Policy → String
  releaseJson : ReleaseDescriptor → String
  inputJson : SearchInput → String

/-- The columns of `sporos_operation` that a page writes. -/
structure ProgressRow where
  id : Id
  state : String
  lastReportedCursor : Option Id
  producedTasks : ℕ
  updatedAt : ℤ
  deriving DecidableEq, Repr

/-- The tables of the backfill, with those of the search. -/
structure BackfillDb where
  search : SearchDb
  torrents : List TorrentRow
  dataSources : List DataSourceRow
  operations : List ProgressRow
  deriving DecidableEq, Repr

/-- Where the next page begins, and whether this was the last one. -/
structure BackfillPage where
  nextCursor : Option Id
  done : Bool
  deriving DecidableEq, Repr

/-- `BACKFILL_PAGE_SIZE`. -/
def backfillPageSize : ℕ := 100

/-! ### Selection -/

/-- `hex` of bytes. -/
def hex (bytes : Bytes) : String :=
  String.ofList (bytes.flatMap fun byte => [hexDigit (byte.toNat / 16), hexDigit (byte.toNat % 16)])

/-- `backfill_selected`. -/
def backfillSelected (row : TorrentRow) (selection : BackfillSelection) : Bool :=
  (selection.hashes = [] ∨ [row.v1Hash, row.v2Hash].any fun hash => hash.any fun hash =>
    hex hash ∈ selection.hashes)
    ∧ (selection.includeCategories = [] ∨ row.category ∈ selection.includeCategories)
    ∧ row.category ∉ selection.excludeCategories
    ∧ (selection.includeTags = [] ∨ selection.includeTags.any (· ∈ row.tags))
    ∧ ¬ selection.excludeTags.any (· ∈ row.tags)
    ∧ ¬ row.tags.any fun tag => "sporos".toList.isPrefixOf tag.toList

/-- `ORDER BY priority, prowlarr_id`. -/
def indexerOrder (row : IndexerRow) : ℤ ×ₗ ℤ := toLex (row.priority, row.prowlarrId.val)

/-- `eligible_indexers`. -/
def eligibleIndexers (indexers : List IndexerRow) (selected : List ℤ) : List I64 :=
  if selected = [] then
    ((indexers.filter fun row => row.eligible).insertionSort (ByKey indexerOrder)).map
      IndexerRow.prowlarrId
  else
    selected.filterMap fun indexerId =>
      (indexers.find? fun row => row.prowlarrId.val = indexerId
        ∧ row.eligible).map IndexerRow.prowlarrId

/-- `WHERE available = 1 AND is_complete = 1`. -/
def completeTorrents (torrents : List TorrentRow) : List TorrentRow :=
  torrents.filter fun row => row.available ∧ row.isComplete

/-- The order of the identifiers. -/
def torrentKey (row : TorrentRow) : ℕ := row.id.toNat

/-- `id > ? ORDER BY id LIMIT ?`. -/
def pageRows (torrents : List TorrentRow) (cursor : Option Id) : List TorrentRow :=
  page torrentKey backfillPageSize (cursor.map BitVec.toNat) (completeTorrents torrents)

section

variable {Policy : Type} (codec : BackfillCodec Policy)

/-! ### Acceptance -/

/-- The text of the release of a source: a complete torrent or a data source, if it is available. -/
def sourceReleaseJson (db : BackfillDb) (sourceId : Id) : Option String :=
  ((db.torrents.find? fun row => row.id = sourceId ∧ row.available ∧ row.isComplete).map fun row =>
      codec.releaseJson row.release).or
    ((db.dataSources.find? fun row => row.id = sourceId ∧ row.available).map fun row =>
      codec.releaseJson row.release)

/-- The id of the snapshot of a policy. -/
def policyId (policy : Policy) : Id := first16 (codec.sha256 (utf8 (codec.policyJson policy)))

/-- What a search attempt is told apart by. -/
def identity (sourceId : Id) (indexerId : I64) (policyId : Id) (trigger : String) : Digest :=
  codec.sha256 (utf8 "search-attempt-v1" ++ idBytes sourceId ++ Completion.timeBytes indexerId.val
    ++ idBytes policyId
    ++ utf8 trigger)

/-- The id of the task of an attempt. -/
def searchTaskId (digest : Digest) : Id :=
  first16 (codec.sha256 (utf8 "search-task-v1" ++ TaskControl.digestBytes digest))

/-- The instance of an attempt. -/
def searchInstanceId (attemptId : Id) : String := "search-v1:" ++ encodeHex attemptId

/-- The input of a search. -/
def searchInput (sourceId : Id) (indexerId : I64) (policy : Policy)
    (trigger : String) : SearchInput :=
  let digest := identity codec sourceId indexerId (policyId codec policy) trigger
  { taskId := searchTaskId codec digest
    attemptId := first16 digest
    sourceId
    indexerId
    policySnapshotId := policyId codec policy
    trigger }

/-- The task of a search. -/
def searchTask (sourceId : Id) (indexerId : I64) (policy : Policy) (trigger : String)
    (now : ℤ) : NewTask :=
  let digest := identity codec sourceId indexerId (policyId codec policy) trigger
  { id := searchTaskId codec digest
    key := digest
    kind := "search_source_indexer"
    policy :=
      { id := policyId codec policy
        configHash := codec.sha256 (utf8 (codec.policyJson policy))
        matcherVersion := "sporos-matcher/1"
        payloadJson := codec.policyJson policy
        createdAt := now }
    orchestrationName := "SearchSourceIndexer"
    orchestrationVersion := "1.0.0"
    instanceId := searchInstanceId (first16 digest)
    inputJson := codec.inputJson (searchInput codec sourceId indexerId policy trigger)
    createdAt := now }

/-- The row of a new attempt. -/
def attemptRow (input : SearchInput) (queryFingerprint : Digest) (now : ℤ) : AttemptRow where
  id := input.attemptId
  sourceId := input.sourceId
  indexerId := input.indexerId
  queryFingerprint
  policySnapshotId := input.policySnapshotId
  trigger := input.trigger
  state := "queued"
  resultsSeen := 0
  resultsDownloaded := 0
  nextEligibleAt := none
  reasonCode := none
  createdAt := now
  completedAt := none
  taskId := some input.taskId
  dependencyAttempts := 0

/-- The columns of the index `sporos_search_attempt_logical_idx`. -/
def logicalKey (row : AttemptRow) : Id × I64 × Digest × Id × String :=
  (row.sourceId, row.indexerId, row.queryFingerprint, row.policySnapshotId, row.trigger)

/-- `INSERT INTO sporos_search_attempt … ON CONFLICT(id) DO NOTHING`. The row is unique in two other
ways, and refers to the indexer, the policy and the task. -/
def insertAttempt (s : SearchDb) (row : AttemptRow) : Except SearchError SearchDb :=
  if (lookup AttemptRow.id s.attempts row.id).isSome then .ok s
  else if s.attempts.any (fun old => logicalKey old = logicalKey row ∨ row.taskId.isSome
    ∧ old.taskId = row.taskId)
      ∨ (lookup IndexerRow.prowlarrId s.indexers row.indexerId).isNone
      ∨ (lookup PolicyRow.id s.db.policies row.policySnapshotId).isNone
      ∨ row.taskId.any (fun taskId => (s.db.task taskId).isNone) then .error .database
  else .ok { s with attempts := s.attempts ++ [row] }

/-- `accept_in`: whether the start request was inserted. -/
def acceptIn (db : BackfillDb) (sourceId : Id) (indexerId : I64) (policy : Policy)
    (trigger : String) (now : ℤ) : Except SearchError (BackfillDb × Bool) :=
  match sourceReleaseJson codec db sourceId with
  | none => .error .sourceUnavailable
  | some releaseJson => do
    let (tables, inserted) ← (acceptTaskIn codec.jsonValid db.search.db
      (searchTask codec sourceId indexerId policy trigger now)).mapError .durableIngress
    let search ← insertAttempt { db.search with db := tables }
      (attemptRow (searchInput codec sourceId indexerId policy trigger)
        (codec.sha256 (utf8 releaseJson)) now)
    return ({ db with search }, inserted)

/-! ### Pages -/

/-- The trigger of a backfill. -/
def backfillTrigger (input : BackfillInput) : String := "manual:" ++ encodeHex input.operationId

/-- One indexer of a torrent, with the number of tasks that are new so far. -/
def acceptOne (policy : Policy) (trigger : String) (now : ℤ) (sourceId : Id)
    (state : BackfillDb × ℕ) (indexerId : I64) : Except SearchError (BackfillDb × ℕ) := do
  let (db, inserted) ← acceptIn codec state.1 sourceId indexerId policy trigger now
  return (db, if inserted then state.2 + 1 else state.2)

/-- One torrent of a page. -/
def acceptRow (policy : Policy) (input : BackfillInput) (indexerIds : List I64) (now : ℤ)
    (state : BackfillDb × ℕ) (row : TorrentRow) : Except SearchError (BackfillDb × ℕ) :=
  if backfillSelected row input.selection then
    indexerIds.foldlM (acceptOne codec policy (backfillTrigger input) now row.id) state
  else .ok state

/-- The operation and its task after a page. -/
def reportPage (db : BackfillDb) (input : BackfillInput) (page : BackfillPage) (produced : ℕ)
    (now : ℤ) : BackfillDb :=
  { db with
    operations := updateKey ProgressRow.id db.operations input.operationId fun row =>
      { row with
        state := if page.done then "completed" else "running"
        producedTasks := row.producedTasks + produced
        lastReportedCursor := page.nextCursor
        updatedAt := now }
    search := { db.search with
      db := db.search.db.updateTask input.taskId (Writers.pageRow page.done now) } }

/-- `produce_page`. What it reads before the transaction does not change in it. -/
def producePage (db : BackfillDb) (input : BackfillInput) (now : ℤ) :
    Except SearchError (BackfillDb × BackfillPage) :=
  let rows := pageRows db.torrents input.cursor
  let page : BackfillPage := ⟨rows.getLast?.map TorrentRow.id, rows.length < backfillPageSize⟩
  match lookup PolicyRow.id db.search.db.policies input.policySnapshotId with
  | none => .error .database
  | some row =>
    match codec.decodePolicy row.payloadJson with
    | none => .error .json
    | some policy => do
      let (db, produced) ← rows.foldlM
        (acceptRow codec policy input (eligibleIndexers db.search.indexers input.indexerIds) now)
          (db, 0)
      return (reportPage db input page produced now, page)

end

/-! ### The workflow -/

/-- The database, the cursor of the current execution of the workflow, the cursors of all of them,
what their pages have returned, the number of pages that the workflow has taken, and whether it has
ended. -/
structure Run where
  db : BackfillDb
  cursor : Option Id
  issued : List (Option Id)
  outputs : List (Option Id × BackfillPage)
  turns : ℕ
  finished : Bool

/-- A workflow that has been started. -/
def Run.init (db : BackfillDb) (cursor : Option Id) : Run := ⟨db, cursor, [cursor], [], 0, false⟩

/-- `backfill_workflow` after its page. -/
def Run.turn (run : Run) (page : BackfillPage) : Run :=
  if page.done then { run with turns := run.turns + 1, finished := true }
  else
    { run with
      cursor := page.nextCursor
      issued := run.issued ++ [page.nextCursor]
      turns := run.turns + 1 }

end Sporos.Service.Backfill

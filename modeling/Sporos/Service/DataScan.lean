import Sporos.Lib.Sha256
import Sporos.Service.DataTree
import Sporos.Service.QbitProjection

/-! # Data scans

A scan of a data root is a sequence of executions of `scan_page`, each of which reads one page of a
directory and commits it: the releases with their files, the directories to scan next and the
cursor. The last one marks the sources of the root that other scans saw last as unavailable, and
ends the scan. The search tasks that a page starts are not modelled. -/

namespace Sporos.Service.DataScan

open Sporos.Model.Matching
open Sporos.Matcher.Release
open Sporos.Service.Tables
open Sporos.Service.Ingress
open Sporos.Service.Sources
open Sporos.Service.QbitProjection
open Sporos.Service.DataTree
open Sporos.Lib.Table
open Sporos.Lib.Lists

/-! ### Scans and their tables -/

/-- The input of a scan workflow. -/
structure ScanInput where
  operationId : Id
  taskId : Id
  rootName : String
  generation : ℕ
  policySnapshotId : Id
  indexerIds : List ℤ
  deriving DecidableEq, Repr

/-- SHA-256, the character tables, and the encoders and decoders of JSON. -/
structure ScanCodec where
  unicode : Unicode
  sha256 : Bytes → Digest
  jsonValid : String → Bool
  primaryVideoExtensions : String → Option (List Str)
  requestJson : String → List ℤ → Bool → String
  inputJson : ScanInput → String

/-- SHA-256 and the encoders of `serde_json`, on texts of ASCII characters that need no escapes and
with the extensions of the default policy. -/
def ScanCodec.serde : ScanCodec where
  unicode := Unicode.ascii
  sha256 := Sporos.Lib.Sha256.sha256
  jsonValid _ := true
  primaryVideoExtensions _ := some MatchingPolicy.default.primaryVideoExtensions
  requestJson rootName indexerIds force :=
    "\x7b\"force\":" ++ (if force then "true" else "false") ++ ",\"indexerIds\":["
      ++ ",".intercalate (indexerIds.map toString) ++ "],\"root\":\"" ++ rootName ++ "\"\x7d"
  inputJson input :=
    let array (id : Id) :=
      "[" ++ ",".intercalate ((idBytes id).map fun b => toString b.toNat) ++ "]"
    "\x7b\"operation_id\":" ++ array input.operationId ++ ",\"task_id\":" ++ array input.taskId
      ++ ",\"root_name\":\"" ++ input.rootName ++ "\",\"generation\":" ++ toString input.generation
      ++ ",\"policy_snapshot_id\":" ++ array input.policySnapshotId ++ ",\"indexer_ids\":["
      ++ ",".intercalate (input.indexerIds.map toString) ++ "]\x7d"

/-- The values of `state` of a directory. -/
inductive DirectoryState where
  | queued
  | running
  | completed
  deriving DecidableEq, Repr

/-- A row of `sporos_data_scan_directory`. -/
structure DirectoryRow where
  operationId : Id
  relativePath : Bytes
  depth : ℕ
  cursorName : Option Bytes
  state : DirectoryState
  deriving DecidableEq, Repr

/-- The primary key of a directory. -/
def DirectoryRow.key (row : DirectoryRow) : Id × Bytes := (row.operationId, row.relativePath)

/-- A row of `sporos_data_scan_state`. -/
structure ScanRow where
  operationId : Id
  rootName : String
  generation : ℕ
  observedReleases : ℕ
  state : String
  reasonCode : Option String
  updatedAt : ℤ
  deriving DecidableEq, Repr

/-- The point of an execution of `scan_page` at which a scan is: before its first statement, before
one of those that end it, or after its end. -/
inductive Phase where
  | page
  | hiding
  | sweeping
  | finishing (reason : String) (failed : Bool)
  | done (reason : String)
  deriving DecidableEq, Repr

/-- What a statement has done to the sources of a root. -/
inductive Effect where
  | stamped (input : ScanInput) (releases : List ScannedRelease)
  | swept (input : ScanInput)
  | hidden (input : ScanInput)
  deriving DecidableEq, Repr

/-- The scans that have been accepted, with their tables, the points at which they are, and what
they have done. -/
structure Scans where
  inputs : List ScanInput
  rows : List ScanRow
  directories : List DirectoryRow
  phase : Id → Phase
  effects : List Effect

/-- No scan has been asked for. -/
def Scans.init : Scans := ⟨[], [], [], fun _ => .page, []⟩

/-- A scan moves on. -/
def Scans.setPhase (scans : Scans) (operationId : Id) (phase : Phase) : Scans :=
  { scans with phase := Function.update scans.phase operationId phase }

/-- The row of a scan is changed. -/
def Scans.updateRow (scans : Scans) (operationId : Id) (f : ScanRow → ScanRow) : Scans :=
  { scans with rows := updateKey ScanRow.operationId scans.rows operationId f }

/-! ### Acceptance -/

/-- `generation`: the first eight bytes of the operation, without the sign. -/
def generation (operationId : Id) : ℕ := (operationId.extractLsb' 64 64).toNat % 2 ^ 63

section

variable (codec : ScanCodec)

/-- The input of a scan. The policy is its JSON. -/
def scanInput (rootName policyJson : String) (indexerIds : List ℤ)
    (forceNonce : Option String) : ScanInput :=
  let policyId := first16 (codec.sha256 (utf8 policyJson))
  let operationId := first16 (codec.sha256 (utf8 "data-scan-operation-v1"
    ++ utf8 (codec.requestJson rootName indexerIds forceNonce.isSome) ++ idBytes policyId
    ++ (forceNonce.map utf8).getD []))
  { operationId
    taskId := first16 (codec.sha256 (utf8 "data-scan-task-v1" ++ idBytes operationId))
    rootName
    generation := generation operationId
    policySnapshotId := policyId
    indexerIds }

/-- The instance of a scan. -/
def scanInstanceId (input : ScanInput) : String :=
  "data-scan-v1:" ++ encodeHex input.operationId ++ ":" ++ input.rootName

/-- The task of a scan. -/
def scanTask (input : ScanInput) (policyJson : String) (now : ℤ) : NewTask where
  id := input.taskId
  key := codec.sha256 (utf8 "data-scan-task-v1" ++ idBytes input.operationId)
  kind := "data_scan"
  policy :=
    { id := input.policySnapshotId
      configHash := codec.sha256 (utf8 policyJson)
      matcherVersion := "sporos-matcher/1"
      payloadJson := policyJson
      createdAt := now }
  orchestrationName := "ScanDataRoot"
  orchestrationVersion := "1.0.0"
  instanceId := scanInstanceId input
  inputJson := codec.inputJson input
  createdAt := now

/-- `accept`: the task, the operation, the state of the scan and its first directory, unless they
are there. A scan that is accepted again is not started again. -/
def accept (store : Store) (scans : Scans) (rootName policyJson : String) (indexerIds : List ℤ)
    (forceNonce : Option String) (now : ℤ) : Option (Store × Scans) :=
  let input := scanInput codec rootName policyJson indexerIds forceNonce
  match acceptTaskIn codec.jsonValid store.db (scanTask codec input policyJson now) with
  | .error _ => none
  | .ok (db, _) =>
    let operation : OperationRow :=
      { id := input.operationId
        kind := "data_scan"
        state := "queued"
        instanceId := scanInstanceId input
        requestJson := codec.requestJson rootName indexerIds forceNonce.isSome
        createdAt := now
        updatedAt := now }
    some
      ({ store with
          db, operations := insertOrIgnore OperationRow.id store.operations operation },
        { scans with
          inputs := insertOrIgnore ScanInput.operationId scans.inputs input
          rows := insertOrIgnore ScanRow.operationId scans.rows
            ⟨input.operationId, rootName, input.generation, 0, "queued", none, now⟩
          directories := insertOrIgnore DirectoryRow.key scans.directories
            ⟨input.operationId, [], 0, none, .queued⟩ })

/-! ### Releases -/

/-- The id of a release below a data root. -/
def dataSourceId (rootName : String) (relative : Bytes) : Id :=
  first16 (codec.sha256 (utf8 "data-source-v1" ++ utf8 rootName ++ [0] ++ relative))

/-- The row of a release. -/
def dataSourceRow (rootName : String) (generation : ℕ) (release : ScannedRelease) (now : ℤ) :
    DataSourceRow where
  id := dataSourceId codec rootName release.relativePath
  rootName
  relativePath := release.relativePath
  kind := release.kind
  name := release.name
  totalSize := release.totalSize
  release := parseRelease codec.unicode release.name.toList
  device := release.device
  inode := release.inode
  modifiedAt := release.modifiedAt
  available := true
  lastSeenGeneration := generation
  updatedAt := now

/-- The row that `DO UPDATE` leaves: the identifier is not in its list. -/
def restamped (row old : DataSourceRow) : DataSourceRow := { row with id := old.id }

/-- `INSERT INTO sporos_data_source … ON CONFLICT(root_name, relative_path) DO UPDATE`. The
identifier of another source is an error. -/
def upsertDataSource (sources : List DataSourceRow) (row : DataSourceRow) :
    Option (List DataSourceRow) :=
  if (lookup DataSourceRow.key sources row.key).isSome then
    some (updateKey DataSourceRow.key sources row.key (restamped row))
  else if (lookup DataSourceRow.id sources row.id).isSome then none
  else some (sources ++ [row])

/-- A number with four digits or more. -/
def fourDigits (n : ℕ) : Str := (toString n).toList.leftpad 4 '0'

/-- The key of the episode that the name of a file tells. -/
def episodeKey (release : ReleaseDescriptor) (displayPath : String) : Option String :=
  let episode := parseRelease codec.unicode displayPath.toList
  match episode.season, episode.episode with
  | some season, some episode =>
    some (String.ofList
      (release.primaryTitle ++ ":s".toList ++ fourDigits season ++ ":e".toList
        ++ fourDigits episode))
  | _, _ => none

/-- The row of a file of a release. -/
def releaseFile (rootName : String) (generation : ℕ) (release : ScannedRelease) (file : ScannedFile)
    (ordinal : ℕ) : SourceFileRow where
  id := 0
  sourceId := dataSourceId codec rootName release.relativePath
  manifestVersion := generation
  relativePath := file.relativePath
  displayPath := file.displayPath
  size := file.size
  fileKind := file.kind
  episodeKey := episodeKey codec (parseRelease codec.unicode release.name.toList) file.displayPath
  localPath := some file.localPath
  device := some file.device
  inode := some file.inode
  modifiedAt := some file.modifiedAt
  available := true
  ordinal

/-- The columns that `DO UPDATE` sets when a file is stored again. -/
def restore (new old : SourceFileRow) : SourceFileRow :=
  { new with
    id := old.id
    sourceId := old.sourceId
    manifestVersion := old.manifestVersion
    ordinal := old.ordinal }

/-- The integers of a file fit their columns. -/
def fileInRange (file : ScannedFile) : Bool :=
  file.size ≤ i64Max ∧ file.device ≤ i64Max ∧ file.inode ≤ i64Max

/-- The numbers of a release are integers of a column. -/
def releaseInRange (release : ScannedRelease) : Bool :=
  release.totalSize ≤ i64Max ∧ release.device ≤ i64Max ∧ release.inode ≤ i64Max
    ∧ release.files.all fileInRange

/-- The files of a release: those of the source are made unavailable, and those of the release are
stored with the generation as their version. -/
def persistFiles (files : List SourceFileRow) (rootName : String) (generation : ℕ)
    (release : ScannedRelease) : List SourceFileRow :=
  release.files.zipIdx.foldl (fun files (file, ordinal) =>
      let row := releaseFile codec rootName generation release file ordinal
      upsertFile files row (restore row))
    (setAvailable files (dataSourceId codec rootName release.relativePath) (fun _ => true) false)

/-- `persist_release`; `none` is an error. -/
def persistRelease (store : Store) (rootName : String) (generation : ℕ)
    (release : ScannedRelease) (now : ℤ) : Option Store :=
  if releaseInRange release then
    (upsertDataSource store.dataSources (dataSourceRow codec rootName generation release now)).map
      fun dataSources =>
        { store with
          dataSources, files := persistFiles codec store.files rootName generation release }
  else none

/-! ### Statements -/

/-- Why a page cannot be stored. -/
inductive PageError where
  | releaseLimit
  | database
  deriving DecidableEq, Repr

/-- One release of a page; the number of releases of the scan is bounded. -/
def persistOne (root : DataRoot) (input : ScanInput) (now : ℤ) (state : Store × ℕ)
    (release : ScannedRelease) : Except PageError (Store × ℕ) :=
  let observed := min (state.2 + 1) i64Max
  if observed > min root.maxReleases i64Max then .error .releaseLimit
  else
    match persistRelease codec state.1 input.rootName input.generation release now with
    | none => .error .database
    | some store => .ok (store, observed)

/-- The row of a directory after a page of it. -/
def turnPage (page : DirectoryPage) (row : DirectoryRow) : DirectoryRow :=
  if page.hasMore then { row with state := .running, cursorName := page.lastName }
  else { row with state := .completed, cursorName := none }

/-- The transaction of a page. -/
def commitPage (root : DataRoot) (input : ScanInput) (directory : DirectoryRow)
    (page : DirectoryPage) (now : ℤ) (store : Store) (scans : Scans) :
      Except PageError (Store × Scans) :=
  match lookup ScanRow.operationId scans.rows input.operationId with
  | none => .error .database
  | some row => do
    let (store, observed) ← page.releases.foldlM (persistOne codec root input now)
      (store, row.observedReleases)
    let children := page.children.foldl (fun directories child =>
      insertOrIgnore DirectoryRow.key directories
        ⟨input.operationId, child, directory.depth + 1, none, .queued⟩) scans.directories
    let directories := updateKey DirectoryRow.key children directory.key (turnPage page)
    let scans :=
      { scans with
        directories, effects := scans.effects ++ [Effect.stamped input page.releases] }
    let scans := scans.updateRow input.operationId fun row =>
      { row with observedReleases := observed, state := "running", updatedAt := now }
    let operations := updateKey OperationRow.id store.operations input.operationId fun row =>
      { row with state := "running", updatedAt := now }
    let db := store.db.updateTask input.taskId fun row =>
      { row with state := "running", updatedAt := now }
    return ({ store with operations, db }, scans)

/-- The directories that a scan has not completed. -/
def remaining (scans : Scans) (operationId : Id) : List DirectoryRow :=
  scans.directories.filter fun row => row.operationId = operationId ∧ row.state ≠ .completed

/-- `ORDER BY relative_path LIMIT 1`. -/
def nextDirectory (scans : Scans) (operationId : Id) : Option DirectoryRow :=
  ((remaining scans operationId).insertionSort (ByKey DirectoryRow.relativePath)).head?

/-- The extensions of the policy of a scan. -/
def policyExtensions (store : Store) (input : ScanInput) : Option (List Str) :=
  (lookup PolicyRow.id store.db.policies input.policySnapshotId).bind fun row =>
    codec.primaryVideoExtensions row.payloadJson

/-- A page of the next directory, as far as the transaction of the page and the count of the
directories that remain. Only the scan itself writes its directories, so that what it reads of them
before does not change. An error ends the execution, and another one begins. -/
def scanDirectoryPage (fs : FileSystem) (root : DataRoot) (input : ScanInput)
    (directory : DirectoryRow) (now : ℤ) (store : Store) (scans : Scans) : Store × Scans :=
  match policyExtensions codec store input with
  | none => (store, scans)
  | some extensions =>
    match scanDirectory fs root directory.relativePath directory.depth
      directory.cursorName extensions with
    | .error error => (store, scans.setPhase input.operationId (.finishing error.reasonCode true))
    | .ok page =>
      match commitPage codec root input directory page now store scans with
      | .error .releaseLimit =>
        (store, scans.setPhase input.operationId (.finishing "release_limit" true))
      | .error .database => (store, scans)
      | .ok (store, scans) =>
        (store, if remaining scans input.operationId = []
          then scans.setPhase input.operationId .sweeping
          else scans)

/-- The first statements of `scan_page`. -/
def scanPage (fs : FileSystem) (roots : String → Option DataRoot) (input : ScanInput) (now : ℤ)
    (store : Store) (scans : Scans) : Store × Scans :=
  match roots input.rootName with
  | none => (store, scans.setPhase input.operationId (.finishing "root_not_configured" true))
  | some root =>
    match safeRoot fs root.path with
    | .error (.io .notFound) => (store, scans.setPhase input.operationId .hiding)
    | .error _ => (store, scans.setPhase input.operationId (.finishing "unsafe_root" true))
    | .ok () =>
      match nextDirectory scans input.operationId with
      | none => (store, scans.setPhase input.operationId .sweeping)
      | some directory => scanDirectoryPage codec fs root input directory now store scans

/-- `UPDATE sporos_data_source SET available = 0` for the sources of a root that a condition
selects. -/
def hideSources (store : Store) (rootName : String) (p : DataSourceRow → Bool) (now : ℤ) : Store :=
  { store with
    dataSources := store.dataSources.map fun row =>
      if row.rootName = rootName ∧ p row then { row with available := false, updatedAt := now }
      else row }

/-- `finish`. -/
def finish (input : ScanInput) (now : ℤ) (reason : String) (failed : Bool) (store : Store)
    (scans : Scans) : Store × Scans :=
  let state := if failed then "failed" else "completed"
  ({ store with
      operations := updateKey OperationRow.id store.operations input.operationId fun row =>
        { row with state, updatedAt := now }
      db := store.db.updateTask input.taskId fun row =>
        { row with state, reasonCode := some reason, updatedAt := now, terminalAt := some now } },
    (scans.updateRow input.operationId fun row =>
      { row with state, reasonCode := some reason, updatedAt := now }).setPhase input.operationId
        (.done reason))

/-- The next statement of a scan. -/
def advance (fs : FileSystem) (roots : String → Option DataRoot) (input : ScanInput) (now : ℤ)
    (store : Store) (scans : Scans) : Store × Scans :=
  match scans.phase input.operationId with
  | .page => scanPage codec fs roots input now store scans
  | .hiding =>
    (hideSources store input.rootName (fun _ => true) now,
      { scans with effects := scans.effects ++ [Effect.hidden input] }.setPhase input.operationId
        (.finishing "root_unavailable" false))
  | .sweeping =>
    (hideSources store input.rootName (·.lastSeenGeneration ≠ input.generation) now,
      { scans with effects := scans.effects ++ [Effect.swept input] }.setPhase input.operationId
        (.finishing "completed" false))
  | .finishing reason failed => finish input now reason failed store scans
  | .done _ => (store, scans)

/-- Requests of scans and the statements of the scans that have been accepted, with the file system
as it is then. An execution may stop at any point, after which another one begins. -/
inductive Event where
  | accept (rootName policyJson : String) (indexerIds : List ℤ) (forceNonce :
    Option String) (now : ℤ)
  | advance (operationId : Id) (fs : FileSystem) (now : ℤ)
  | abort (operationId : Id)

/-- The phase after an execution has stopped. -/
def Phase.again : Phase → Phase
  | .done reason => .done reason
  | _ => .page

/-- The tables after an event of the scans. -/
def Event.apply (roots : String → Option DataRoot) (state : Store × Scans) : Event → Store × Scans
  | .accept rootName policyJson indexerIds forceNonce now =>
    (DataScan.accept codec state.1 state.2 rootName policyJson indexerIds forceNonce now).getD state
  | .advance operationId fs now =>
    match lookup ScanInput.operationId state.2.inputs operationId with
    | none => state
    | some input => DataScan.advance codec fs roots input now state.1 state.2
  | .abort operationId => (state.1, state.2.setPhase operationId (state.2.phase operationId).again)

end

/-! ### What a release does -/

section

variable {codec : ScanCodec}

theorem restamped_key (row old : DataSourceRow) : (restamped row old).key = row.key := rfl

/-- The row of a source after an upsert, and those of the others. -/
theorem lookup_upsertDataSource {sources sources' : List DataSourceRow} {row : DataSourceRow}
    (h : upsertDataSource sources row = some sources') (key : String × Bytes) :
    lookup DataSourceRow.key sources' key
      = if key = row.key then
          some (((lookup DataSourceRow.key sources key).map (restamped row)).getD row)
        else lookup DataSourceRow.key sources key := by
  unfold upsertDataSource at h
  split_ifs at h with hknown hid
  · obtain rfl := Option.some_inj.mp h
    rw [lookup_updateKey_at fun old _ => restamped_key row old]
    split
    · rename_i heq
      subst heq
      obtain ⟨old, hold⟩ := Option.isSome_iff_exists.mp hknown
      rw [hold]
      rfl
    · rfl
  · obtain rfl := Option.some_inj.mp h
    rw [lookup_append, lookup_singleton]
    split
    · rename_i heq
      subst heq
      rw [Option.not_isSome_iff_eq_none.mp hknown, if_pos rfl]
      rfl
    · rename_i hne
      rw [if_neg fun h => hne h.symm, Option.or_none]

theorem persistRelease_eq_some {store store' : Store} {rootName : String} {generation : ℕ}
    {release : ScannedRelease} {now : ℤ}
    (h : persistRelease codec store rootName generation release now = some store') :
    ∃ dataSources,
      upsertDataSource store.dataSources (dataSourceRow codec rootName generation release now)
        = some dataSources
      ∧ store' = { store with
          dataSources
          files := persistFiles codec store.files rootName generation release } := by
  unfold persistRelease at h
  split_ifs at h
  obtain ⟨dataSources, hupsert, rfl⟩ := Option.map_eq_some_iff.mp h
  exact ⟨dataSources, hupsert, rfl⟩

theorem persistOne_eq_ok {root : DataRoot} {input : ScanInput} {now : ℤ} {state state' : Store × ℕ}
    {release : ScannedRelease} (h : persistOne codec root input now state release = .ok state') :
    persistRelease codec state.1 input.rootName input.generation release now = some state'.1 := by
  unfold persistOne at h
  dsimp only at h
  split_ifs at h
  split at h
  · cases h
  · rename_i store hstore
    obtain rfl := Except.ok.inj h
    exact hstore

end

/-! ### What a statement does -/

/-- The tables of the sources are the same. -/
structure SameSources (store store' : Store) : Prop where
  torrents : store'.torrents = store.torrents
  dataSources : store'.dataSources = store.dataSources
  files : store'.files = store.files

theorem SameSources.refl (store : Store) : SameSources store store := ⟨rfl, rfl, rfl⟩

/-- The directories after a page of one of them. -/
def pageDirectories (input : ScanInput) (directory : DirectoryRow) (page : DirectoryPage)
    (directories : List DirectoryRow) : List DirectoryRow :=
  updateKey DirectoryRow.key
    (page.children.foldl (fun directories child =>
      insertOrIgnore DirectoryRow.key directories
        ⟨input.operationId, child, directory.depth + 1, none, .queued⟩) directories)
    directory.key (turnPage page)

/-- What an event does to the sources and to the scans. -/
inductive Step (codec : ScanCodec) (roots : String → Option DataRoot)
    (state state' : Store × Scans) : Prop where
  | accept (input : ScanInput) (hgeneration : input.generation = generation input.operationId)
    (hsources : SameSources state.1 state'.1)
    (hinputs : state'.2.inputs = insertOrIgnore ScanInput.operationId state.2.inputs input)
    (hdirectories : state'.2.directories = insertOrIgnore DirectoryRow.key state.2.directories
      ⟨input.operationId, [], 0, none, .queued⟩)
    (heffects : state'.2.effects = state.2.effects)
    (hphase : state'.2.phase = state.2.phase)
  | control (operationId : Id) (phase : Phase) (hsources : SameSources state.1 state'.1)
    (hinputs : state'.2.inputs = state.2.inputs)
    (hdirectories : state'.2.directories = state.2.directories)
    (heffects : state'.2.effects = state.2.effects)
    (hphase : state'.2.phase = Function.update state.2.phase operationId phase)
  | page (input : ScanInput) (hinput : input ∈ state.2.inputs) (root : DataRoot)
    (directory : DirectoryRow)
    (hdirectory : directory ∈ state.2.directories)
    (hoperation : directory.operationId = input.operationId)
    (hopen : directory.state ≠ .completed) (page : DirectoryPage) (names : List Bytes)
    (hpage : PageOf directory.relativePath directory.cursorName names page)
      (now : ℤ) (store : Store)
    (count observed : ℕ)
    (hreleases : page.releases.foldlM (persistOne codec root input now) (state.1, count)
      = .ok (store, observed))
    (hsources : SameSources store state'.1) (hinputs : state'.2.inputs = state.2.inputs)
    (hdirectories : state'.2.directories = pageDirectories input directory page state.2.directories)
    (heffects : state'.2.effects = state.2.effects ++ [.stamped input page.releases])
    (phase : Phase)
    (hphase : state'.2.phase = Function.update state.2.phase input.operationId phase)
  | hide (input : ScanInput) (hinput : input ∈ state.2.inputs)
    (hfrom : state.2.phase input.operationId = .hiding) (now : ℤ)
    (hstore : state'.1 = hideSources state.1 input.rootName (fun _ => true) now)
    (hinputs : state'.2.inputs = state.2.inputs)
    (hdirectories : state'.2.directories = state.2.directories)
    (heffects : state'.2.effects = state.2.effects ++ [.hidden input])
    (hphase : state'.2.phase
      = Function.update state.2.phase input.operationId (.finishing "root_unavailable" false))
  | sweep (input : ScanInput) (hinput : input ∈ state.2.inputs)
    (hfrom : state.2.phase input.operationId = .sweeping) (now : ℤ)
    (hstore : state'.1 = hideSources state.1 input.rootName (·.lastSeenGeneration ≠
      input.generation) now)
    (hinputs : state'.2.inputs = state.2.inputs)
    (hdirectories : state'.2.directories = state.2.directories)
    (heffects : state'.2.effects = state.2.effects ++ [.swept input])
    (hphase : state'.2.phase
      = Function.update state.2.phase input.operationId (.finishing "completed" false))

section

variable {codec : ScanCodec} {roots : String → Option DataRoot} {state : Store × Scans}

/-- A step that changes nothing but, perhaps, the phase of a scan. -/
theorem Step.setPhase (operationId : Id) (phase : Phase) {store : Store}
    (hsources : SameSources state.1 store) :
    Step codec roots state (store, state.2.setPhase operationId phase) :=
  .control operationId phase hsources rfl rfl rfl rfl

theorem Step.refl (operationId : Id) : Step codec roots state state :=
  .control operationId (state.2.phase operationId) (.refl _) rfl rfl rfl
    (Function.update_eq_self _ _).symm

theorem mem_of_nextDirectory {scans : Scans} {operationId : Id} {directory : DirectoryRow}
    (h : nextDirectory scans operationId = some directory) :
    directory ∈ scans.directories ∧ directory.operationId = operationId
      ∧ directory.state ≠ .completed := by
  have hmem := (List.mem_insertionSort _).mp (List.mem_of_head? h)
  obtain ⟨hmem, hcondition⟩ := List.mem_filter.mp hmem
  exact ⟨hmem, of_decide_eq_true hcondition⟩

theorem commitPage_eq_ok {root : DataRoot} {input : ScanInput} {directory : DirectoryRow}
    {page : DirectoryPage} {now : ℤ} {store store' : Store} {scans scans' : Scans}
    (h : commitPage codec root input directory page now store scans = .ok (store', scans')) :
    ∃ count observed persisted,
      page.releases.foldlM (persistOne codec root input now) (store, count) =
        .ok (persisted, observed)
      ∧ SameSources persisted store' ∧ scans'.inputs = scans.inputs
      ∧ scans'.directories = pageDirectories input directory page scans.directories
      ∧ scans'.effects = scans.effects ++ [.stamped input page.releases]
      ∧ scans'.phase = scans.phase := by
  unfold commitPage at h
  split at h
  · cases h
  · rename_i row _
    obtain ⟨⟨persisted, observed⟩, hpersisted, h⟩ := Sporos.Lib.Loop.bind_eq_ok.mp h
    obtain ⟨rfl, rfl⟩ := Prod.mk.inj (Except.ok.inj h)
    exact ⟨row.observedReleases, observed, persisted, hpersisted, ⟨rfl, rfl, rfl⟩,
      rfl, rfl, rfl, rfl⟩

theorem step_scanDirectoryPage {fs : FileSystem} {root : DataRoot} {input : ScanInput}
    (hinput : input ∈ state.2.inputs) {directory : DirectoryRow}
    (hdirectory : nextDirectory state.2 input.operationId = some directory) (now : ℤ) :
    Step codec roots state (scanDirectoryPage codec fs root input directory
      now state.1 state.2) := by
  unfold scanDirectoryPage
  split
  · exact .refl input.operationId
  · split
    · exact .setPhase _ _ (.refl _)
    · rename_i page hscan
      obtain ⟨names, hpage⟩ := scanDirectory_eq_ok hscan
      obtain ⟨hmem, hoperation, hopen⟩ := mem_of_nextDirectory hdirectory
      split
      · exact .setPhase _ _ (.refl _)
      · exact .refl input.operationId
      · rename_i store scans hcommit
        obtain ⟨count, observed, persisted, hpersisted, hsources, hinputs, hdirectories,
            heffects, hphase⟩ :=
          commitPage_eq_ok hcommit
        split
        · exact .page input hinput root directory hmem hoperation hopen page names hpage
            now persisted count
            observed hpersisted hsources hinputs hdirectories heffects .sweeping
            (by rw [Scans.setPhase, hphase])
        · exact .page input hinput root directory hmem hoperation hopen page names hpage
            now persisted count
            observed hpersisted hsources hinputs hdirectories heffects
              (state.2.phase input.operationId)
            (by rw [hphase, Function.update_eq_self])

theorem step_advance {fs : FileSystem} {input : ScanInput}
    (hinput : input ∈ state.2.inputs) (now : ℤ) :
    Step codec roots state (advance codec fs roots input now state.1 state.2) := by
  unfold advance
  split
  · unfold scanPage
    split
    · exact .setPhase _ _ (.refl _)
    · split
      · exact .setPhase _ _ (.refl _)
      · exact .setPhase _ _ (.refl _)
      · split
        · exact .setPhase _ _ (.refl _)
        · rename_i directory hdirectory
          exact step_scanDirectoryPage hinput hdirectory now
  · rename_i hfrom
    exact .hide input hinput hfrom now rfl rfl rfl rfl rfl
  · rename_i hfrom
    exact .sweep input hinput hfrom now rfl rfl rfl rfl rfl
  · rename_i reason failed _
    exact .control input.operationId (.done reason) ⟨rfl, rfl, rfl⟩ rfl rfl rfl rfl
  · exact .refl input.operationId

/-- **One event.** -/
theorem step_apply (event : Event) : Step codec roots state (event.apply codec roots state) := by
  cases event with
  | accept rootName policyJson indexerIds forceNonce now =>
    simp only [Event.apply]
    cases haccept : DataScan.accept codec state.1 state.2 rootName policyJson indexerIds
      forceNonce now with
    | none => exact .refl 0
    | some state' =>
      unfold DataScan.accept at haccept
      dsimp only at haccept
      split at haccept
      · cases haccept
      · obtain rfl := Option.some_inj.mp haccept
        exact .accept _ rfl ⟨rfl, rfl, rfl⟩ rfl rfl rfl rfl
  | advance operationId fs now =>
    simp only [Event.apply]
    split
    · exact .refl operationId
    · rename_i input hinput
      exact step_advance (lookup_eq_some_mem hinput).1 now
  | abort operationId => exact .setPhase operationId _ (.refl _)

/-- The scans that have been accepted stay, and are told apart. -/
theorem Step.inputs {state' : Store × Scans} (hstep : Step codec roots state state')
    (hunique : UniqueKey ScanInput.operationId state.2.inputs) :
    UniqueKey ScanInput.operationId state'.2.inputs ∧ ∀ input ∈ state.2.inputs,
      input ∈ state'.2.inputs := by
  cases hstep with
  | accept input _ _ hinputs =>
    rw [hinputs]
    exact ⟨hunique.insertOrIgnore input, fun _ => mem_insertOrIgnore_of_mem⟩
  | control _ _ _ hinputs => rw [hinputs]; exact ⟨hunique, fun _ h => h⟩
  | page _ _ _ _ _ _ _ _ _ _ _ _ _ _ _ _ hinputs => rw [hinputs]; exact ⟨hunique, fun _ h => h⟩
  | hide _ _ _ _ _ hinputs => rw [hinputs]; exact ⟨hunique, fun _ h => h⟩
  | sweep _ _ _ _ _ hinputs => rw [hinputs]; exact ⟨hunique, fun _ h => h⟩

end

end Sporos.Service.DataScan

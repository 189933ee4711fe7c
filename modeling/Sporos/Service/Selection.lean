import Sporos.Service.DataScan
import Sporos.Service.Filters
import Sporos.Service.SourceFacts

/-! # The sources of a candidate

`candidate_sources` of `candidate_workflow.rs`: the torrents and the data sources that the reduction
and the filters select, the admission of their files within the limit of the policy, and the files
of each. Every statement reads the store as it is then. -/

namespace Sporos.Service.Selection

open Sporos.Model.Matching
open Sporos.Service.Tables
open Sporos.Service.Sources
open Sporos.Service.Filters
open Sporos.Service.SourceFacts
open Sporos.Lib.Table
open Sporos.Lib.Loop
open Sporos.Lib.Lists

/-! ### Candidates -/

/-- What the evaluation reads of the policy of a candidate. -/
structure CandidatePolicy where
  matching : MatchingPolicy
  sourceFilters : SourceFilters
  pendingSourceTimeoutMs : ℕ
  dryRun : Bool
  deriving DecidableEq, Repr

/-- A candidate as `load_candidate` reads it. -/
structure LoadedCandidate where
  id : Id
  manifest : TorrentManifest
  release : ReleaseDescriptor
  policy : CandidatePolicy
  createdAt : ℤ
  deriving DecidableEq, Repr

/-- A source that has been selected. -/
structure LoadedSource where
  complete : Bool
  manifestLoaded : Bool
  manifestVersion : ℕ
  fileCount : ℕ
  manifest : LocalSourceManifest
  deriving DecidableEq, Repr

/-- The sources with their files, unless there are too many files. -/
inductive CandidateSources where
  | loaded (sources : List LoadedSource)
  | budgetExceeded
  deriving DecidableEq, Repr

/-- Why an evaluation fails. -/
inductive EvaluationError where
  | storedRange (field : String)
  | range (field : String)
  | matchCollision
  | planCollision
  deriving DecidableEq, Repr

/-- `MAX_PLAUSIBLE_SOURCES`. -/
def maxPlausibleSources : ℕ := 64

/-- `same_identity`. -/
def sameIdentity (candidate : TorrentManifest) (source : LocalSourceManifest) : Bool :=
  (candidate.hashes.v1.isSome && candidate.hashes.v1 = source.hashes.v1)
    || (candidate.hashes.v2.isSome && candidate.hashes.v2 = source.hashes.v2)

/-! ### Listing -/

/-- The number that bytes stand for, the first byte being the highest. -/
def bigEndian (value : Bytes) : ℕ := value.foldl (fun n b => 256 * n + b.toNat) 0

/-- `optional_bytes`. -/
def optionalBytes (n : ℕ) (value : Option Bytes) (field : String) :
    Except EvaluationError (Option (BitVec (8 * n))) :=
  match value with
  | none => .ok none
  | some value =>
    if value.length = n then .ok (some (BitVec.ofNat (8 * n) (bigEndian value)))
      else .error (.storedRange field)

/-- The available files of a version of a source. -/
def versionFiles (files : List SourceFileRow) (sourceId : Id) (version : ℕ) : List SourceFileRow :=
  files.filter fun row => row.sourceId = sourceId ∧ row.manifestVersion = version ∧ row.available

/-- A row of the query of the torrents. -/
def torrentSource (store : Store) (row : TorrentRow) : Except EvaluationError LoadedSource := do
  let v1 ← optionalBytes 20 row.v1Hash "v1 hash"
  let v2 ← optionalBytes 32 row.v2Hash "v2 hash"
  return {
    complete := row.isComplete
    manifestLoaded := 0 < row.fileManifestVersion ∧ row.fileManifestState = .loaded
    manifestVersion := row.fileManifestVersion
    fileCount := (versionFiles store.files row.id row.fileManifestVersion).length
    manifest :=
      { id := row.id
        kind := .qbittorrentTorrent
        release := row.release
        hashes := ⟨v1, v2⟩
        files := []
        available := true } }

/-- A row of the query of the data sources. -/
def dataSource (store : Store) (row : DataSourceRow) : LoadedSource where
  complete := true
  manifestLoaded := true
  manifestVersion := row.lastSeenGeneration
  fileCount := (versionFiles store.files row.id row.lastSeenGeneration).length
  manifest :=
    { id := row.id
      kind := if row.kind = "file" then .dataDirectoryFile else .dataDirectoryRelease
      release := row.release
      hashes := ⟨none, none⟩
      files := []
      available := true }

/-- The order of the torrents: the complete ones first, then by identifier. -/
def torrentOrder (row : TorrentRow) : ℕ ×ₗ ℕ :=
  toLex (if row.isComplete then 0 else 1, row.id.toNat)

/-- The rows of the query of the torrents. -/
def torrentRows (store : Store) (facts : Facts) (candidate : LoadedCandidate) : List TorrentRow :=
  ((store.torrents.filter fun row => row.available
      && reduced facts row.id "qbittorrent" (reductionTitles candidate.release)
        (reductionExternalIds candidate.release)
      && candidateAllowed candidate.policy.sourceFilters row.category row.tags).insertionSort
    (ByKey torrentOrder)).take maxPlausibleSources

/-- The rows of the query of the data sources. -/
def dataRows (store : Store) (facts : Facts) (candidate : LoadedCandidate) (remaining : ℕ) :
    List DataSourceRow :=
  ((store.dataSources.filter fun row => row.available
      && reduced facts row.id "data" (reductionTitles candidate.release)
        (reductionExternalIds candidate.release)).insertionSort
    (ByKey fun row => row.id.toNat)).take remaining

/-- The store that each statement reads; the files of the sources are read one source after the
other. -/
structure Reads where
  torrents : Store × Facts
  data : Store × Facts
  files : ℕ → Store

/-- All statements read one store. -/
def Reads.same (store : Store) (facts : Facts) : Reads :=
  ⟨(store, facts), (store, facts), fun _ => store⟩

/-- The sources that the two queries select. -/
def selected (candidate : LoadedCandidate) (reads : Reads) :
    Except EvaluationError (List LoadedSource) := do
  let torrents ← (torrentRows reads.torrents.1 reads.torrents.2 candidate).mapM
    (torrentSource reads.torrents.1)
  let remaining := maxPlausibleSources - torrents.length
  return torrents ++ (dataRows reads.data.1 reads.data.2 candidate remaining).map
    (dataSource reads.data.1)

/-! ### Files -/

/-- The files of the source are read. -/
def needsFiles (candidate : TorrentManifest) (source : LoadedSource) : Bool :=
  source.complete && source.manifestLoaded && !sameIdentity candidate source.manifest

/-- The number of the files of the candidate that count. -/
def candidateFileCount (candidate : TorrentManifest) : ℕ :=
  candidate.files.countP fun file => !file.padding

/-- The admission of one source. The limit is a `usize`, so that a sum that is none exceeds it. -/
def admitSource (candidate : LoadedCandidate) (admitted : ℕ) (source : LoadedSource) : Option ℕ :=
  if !needsFiles candidate.manifest source then some admitted
  else if source.fileCount
      > candidate.policy.matching.maxAssignmentFiles - candidateFileCount candidate.manifest
        then none
  else if admitted + source.fileCount > candidate.policy.matching.maxAssignmentFiles then none
  else some (admitted + source.fileCount)

/-- A file of a source, from its row. -/
def localFile (row : SourceFileRow) : LocalSourceFile where
  id := row.id
  path := row.displayPath.toList
  size := row.size
  deviceId := row.device
  inode := row.inode

/-- The rows that `source_files` reads. -/
def fileRows (files : List SourceFileRow) (sourceId : Id) (version limit : ℕ) :
    List SourceFileRow :=
  ((versionFiles files sourceId version).insertionSort (ByKey SourceFileRow.ordinal)).take (limit
    + 1)

/-- `source_files`. -/
def sourceFiles (files : List SourceFileRow) (sourceId : Id) (version limit : ℕ) :
    Option (List LocalSourceFile) :=
  if (fileRows files sourceId version limit).length > limit then none
  else some ((fileRows files sourceId version limit).map localFile)

/-- The files of one source, if it needs them. -/
def loadFiles (candidate : TorrentManifest) (store : Store) (source : LoadedSource) :
    Option LoadedSource :=
  if needsFiles candidate source then
    (sourceFiles store.files source.manifest.id source.manifestVersion source.fileCount).map
        fun files =>
      { source with manifest := { source.manifest with files } }
  else some source

/-- The files of the sources, from the read with an index on. -/
def loadAll (candidate : TorrentManifest) (files : ℕ → Store) : ℕ → List LoadedSource →
    Option (List LoadedSource)
  | _, [] => some []
  | i, source :: sources => do
    let source ← loadFiles candidate (files i) source
    let sources ← loadAll candidate files (i + 1) sources
    return source :: sources

/-- `candidate_sources`. -/
def candidateSources (candidate : LoadedCandidate) (reads : Reads) :
    Except EvaluationError CandidateSources := do
  let sources ← selected candidate reads
  match sources.foldlM (admitSource candidate) (candidateFileCount candidate.manifest) with
  | none => return .budgetExceeded
  | some _ =>
    match loadAll candidate.manifest reads.files 0 sources with
    | none => return .budgetExceeded
    | some sources => return .loaded sources

/-! ### What the steps do -/

section

variable {candidate : LoadedCandidate}

theorem mem_versionFiles {files : List SourceFileRow} {sourceId : Id} {version : ℕ}
    {row : SourceFileRow} :
    row ∈ versionFiles files sourceId version
      ↔ row ∈ files ∧ row.sourceId = sourceId ∧ row.manifestVersion = version
        ∧ row.available = true := by
  rw [versionFiles, List.mem_filter, decide_eq_true_eq]

/-- The sources whose files are read. -/
def needing (candidate : TorrentManifest) (sources : List LoadedSource) : List LoadedSource :=
  sources.filter (needsFiles candidate)

/-- **Admission.** The sources are admitted if, and only if, none needs its files, or the files of
the candidate and of those that do are within the limit. -/
theorem admitSource_isSome_iff (sources : List LoadedSource) :
    (sources.foldlM (admitSource candidate) (candidateFileCount candidate.manifest)).isSome = true
      ↔ needing candidate.manifest sources = []
        ∨ candidateFileCount candidate.manifest
            + ((needing candidate.manifest sources).map LoadedSource.fileCount).sum
          ≤ candidate.policy.matching.maxAssignmentFiles := by
  have hfold : ∀ (sources : List LoadedSource) (admitted : ℕ),
      candidateFileCount candidate.manifest ≤ admitted →
      ((sources.foldlM (admitSource candidate) admitted).isSome = true
        ↔ needing candidate.manifest sources = []
          ∨ admitted + ((needing candidate.manifest sources).map LoadedSource.fileCount).sum
            ≤ candidate.policy.matching.maxAssignmentFiles) := by
    intro sources
    induction sources with
    | nil => simp [needing]
    | cons source sources ih =>
      intro admitted hle
      rw [List.foldlM_cons, needing, List.filter_cons]
      cases hneeds : needsFiles candidate.manifest source with
      | false =>
        simp only [admitSource, hneeds, Bool.not_false, if_true]
        exact ih admitted hle
      | true =>
        simp only [if_true, List.map_cons, List.sum_cons, reduceCtorEq, false_or]
        have hadmitted : admitSource candidate admitted source
            = if admitted + source.fileCount > candidate.policy.matching.maxAssignmentFiles
              then none
              else some (admitted + source.fileCount) := by
          rw [admitSource, hneeds]
          simp only [Bool.not_true, Bool.false_eq_true, if_false]
          by_cases hover : admitted
            + source.fileCount > candidate.policy.matching.maxAssignmentFiles
          · rw [if_pos hover]
            split <;> rfl
          · rw [if_neg hover, if_neg (by omega)]
        rw [hadmitted]
        by_cases hover : admitted + source.fileCount > candidate.policy.matching.maxAssignmentFiles
        · rw [if_pos hover]
          simp only [bind, Option.bind_none, Option.isSome_none, Bool.false_eq_true, false_iff]
          omega
        · rw [if_neg hover]
          simp only [bind, Option.bind_some]
          rw [ih _ (by omega)]
          constructor
          · rintro (hnone | hsum)
            · rw [needing] at hnone
              simp only [hnone, List.map_nil, List.sum_nil]
              omega
            · rw [needing] at hsum
              omega
          · intro hsum
            right
            rw [needing]
            omega
  exact hfold sources _ le_rfl

theorem loadAll_eq_some {candidate : TorrentManifest} {files : ℕ → Store} :
    ∀ {i : ℕ} {sources sources' : List LoadedSource},
      loadAll candidate files i sources = some sources' →
      ∀ source' ∈ sources', ∃ j, ∃ source ∈ sources,
        loadFiles candidate (files j) source = some source'
  | _, [], _, h => by
    obtain rfl := Option.some_inj.mp h
    simp
  | i, source :: sources, sources', h => by
    obtain ⟨source₁, hsource₁, h⟩ := Option.bind_eq_some_iff.mp h
    obtain ⟨sources₁, hsources₁, h⟩ := Option.bind_eq_some_iff.mp h
    obtain rfl := Option.some_inj.mp h
    intro source' hsource'
    rcases List.mem_cons.mp hsource' with rfl | hmem
    · exact ⟨i, source, by simp, hsource₁⟩
    · obtain ⟨j, old, hold, hload⟩ := loadAll_eq_some hsources₁ source' hmem
      exact ⟨j, old, by simp [hold], hload⟩

end

end Sporos.Service.Selection

import Sporos.Lib.Lists
import Sporos.Matcher.Assign
import Mathlib.Data.Prod.Lex
import Mathlib.Data.List.Destutter

/-! # The matcher

`PureMatcher::evaluate` of `matcher.rs`: every available source whose release fits the candidate is
assigned to it, a season pack is also assembled from episodes, and the best of the decisions wins.
-/

namespace Sporos.Matcher.Evaluate

open Sporos.Model.Matching
open Sporos.Matcher.Release
open Sporos.Matcher.Files
open Sporos.Matcher.Assign
open Sporos.Lib.Lists (ByKey)

/-- What the matcher is asked: a candidate with its release, the sources, and the policy. -/
structure MatchRequest where
  candidate : TorrentManifest
  candidateRelease : ReleaseDescriptor
  sources : List LocalSourceManifest
  policy : MatchingPolicy
  deriving DecidableEq, Repr

/-! ### Releases -/

/-- The two releases have a title in common. -/
def titlesOverlap (candidate source : ReleaseDescriptor) : Bool :=
  (source.primaryTitle :: source.alternateTitles).any
    (fun title => (candidate.primaryTitle :: candidate.alternateTitles).contains title)

/-- Both identities are known. -/
def bothArr (p : ArrIdentity → ArrIdentity → Bool) (candidate source : ReleaseDescriptor) : Bool :=
  match candidate.arrIdentity, source.arrIdentity with
  | some candidate, some source => p candidate source
  | _, _ => false

/-- The two identities are one entity of one instance. -/
def sameArr (candidate source : ArrIdentity) : Bool :=
  candidate.kind = source.kind && candidate.inst = source.inst
    && candidate.entityId = source.entityId

/-- Both values are known and differ. -/
def differ {α : Type} [DecidableEq α] : Option α → Option α → Bool
  | some a, some b => a ≠ b
  | _, _ => false

/-- `compatible`: why the releases cannot be the same, if so. -/
def compatible (candidate source : ReleaseDescriptor) (seasonMode : Bool) :
    Except MatchReason Unit :=
  if bothArr (fun candidate source => !sameArr candidate source) candidate source then
    .error .seriesConflict
  else if candidate.kind ≠ .unknownVideo && source.kind ≠ .unknownVideo
      && candidate.kind ≠ source.kind
      && !(seasonMode && candidate.kind = .seasonPack && source.kind = .episode) then
    .error .mediaTypeConflict
  else if !bothArr sameArr candidate source && !titlesOverlap candidate source then
    .error .titleConflict
  else if differ candidate.year source.year then .error .yearConflict
  else if differ candidate.season source.season then .error .seasonConflict
  else if !seasonMode && candidate.kind = .episode && source.kind = .episode
      && (candidate.episode, candidate.episodeEnd) ≠ (source.episode, source.episodeEnd) then
    .error .episodeConflict
  else if differ candidate.airDate source.airDate then .error .dateConflict
  else if differ candidate.absoluteEpisode source.absoluteEpisode then .error .episodeConflict
  else .ok ()

theorem differ_eq_false_iff {α : Type} [DecidableEq α] {left right : Option α} :
    differ left right = false ↔ ∀ a b, left = some a → right = some b → a = b := by
  cases left <;> cases right <;> simp [differ]

/-- What two compatible releases have in common. -/
structure Fits (candidate source : ReleaseDescriptor) (seasonMode : Bool) : Prop where
  kinds : candidate.kind = .unknownVideo ∨ source.kind = .unknownVideo
    ∨ candidate.kind = source.kind
    ∨ (seasonMode = true ∧ candidate.kind = .seasonPack ∧ source.kind = .episode)
  titles : bothArr sameArr candidate source = true ∨ titlesOverlap candidate source = true
  years : differ candidate.year source.year = false
  seasons : differ candidate.season source.season = false
  episodes : seasonMode = false → candidate.kind = .episode → source.kind = .episode →
    candidate.episode = source.episode ∧ candidate.episodeEnd = source.episodeEnd
  airDates : differ candidate.airDate source.airDate = false
  absoluteEpisodes : differ candidate.absoluteEpisode source.absoluteEpisode = false

theorem fits_of_compatible {candidate source : ReleaseDescriptor} {seasonMode : Bool}
    (h : compatible candidate source seasonMode = .ok ()) : Fits candidate source seasonMode := by
  unfold compatible at h
  split_ifs at h with harr hkinds htitles hyears hseasons hepisodes hdates habsolute
  refine ⟨?_, ?_, by simpa using hyears, by simpa using hseasons,
    fun hmode hcandidate hsource => ?_, by simpa using hdates, by simpa using habsolute⟩
  · simp only [Bool.and_eq_true, decide_eq_true_eq, Bool.not_eq_true', Bool.and_eq_false_iff, ne_eq,
      decide_eq_false_iff_not] at hkinds
    have hmode : seasonMode = true ∨ seasonMode = false := Bool.eq_false_or_eq_true seasonMode
    tauto
  · simpa [or_iff_not_imp_left] using htitles
  · simpa [hmode, hcandidate, hsource] using hepisodes

/-! ### Decisions -/

/-- The first file with the ordinal of a mapping satisfies `p`. -/
def mappedFile (files : List TorrentFile) (p : TorrentFile → Bool) (mapping : FileMapping) : Bool :=
  (files.find? (fun file => file.ordinal = mapping.candidateOrdinal)).any p

section

variable (request : MatchRequest)

/-- The evidence before anything is mapped. -/
def baseEvidence : MatchEvidence where
  candidateFiles := request.candidate.files.length
  requiredFiles := request.candidate.files.countP (required request.policy)
  primaryFiles := request.candidate.files.countP (primary request.policy)
  mappedFiles := 0
  mappedPrimaryFiles := 0
  mappedPrimaryBytes := 0
  exactPathMappings := 0
  compatibleSources := 0
  qbitSources := 0

/-- The bytes of the required files. -/
def requiredBytes : ℕ :=
  sumU64 ((request.candidate.files.filter (required request.policy)).map TorrentFile.size)

/-- A rejection for a reason. -/
def rejection (reason : MatchReason) (evidence : MatchEvidence) : MatchDecision where
  outcome := .rejected
  mode := none
  reason
  sourceIds := []
  mappings := []
  mappedBytes := 0
  missingBytes := 0
  presentRatio := 0
  requiresRecheck := false
  evidence

/-- A decision without mappings that reports what is missing. -/
def absence (outcome : MatchOutcome) (reason : MatchReason) (evidence : MatchEvidence) :
    MatchDecision where
  outcome
  mode := none
  reason
  sourceIds := []
  mappings := []
  mappedBytes := 0
  missingBytes := requiredBytes request
  presentRatio := 0
  requiresRecheck := false
  evidence

/-- A decision that nothing matches, for a reason. -/
def noMatch (reason : MatchReason) (evidence : MatchEvidence) : MatchDecision :=
  absence request .noMatch reason evidence

/-- The bytes of the required files that are mapped. -/
def mappedRequired (mappings : List FileMapping) : ℕ :=
  sumU64 ((mappings.filter
    (mappedFile request.candidate.files (required request.policy))).map FileMapping.size)

/-- The sources of the mappings, each once, in increasing order. -/
def sourceIdsOf (mappings : List FileMapping) : List SourceId :=
  ((mappings.map FileMapping.sourceId).insertionSort (ByKey BitVec.toNat)).destutter (· ≠ ·)

/-- The reason that goes with a mode. -/
def modeReason : MatchMode → MatchReason
  | .strict => .matchStrict
  | .flexible => .matchFlexible
  | .partialMatch => .matchPartial
  | .seasonFromEpisodes => .matchSeasonFromEpisodes

/-- The decision for some mappings in a mode. -/
def decision (mode : MatchMode) (mappings : List FileMapping) (compatibleSources : ℕ) :
    MatchDecision :=
  let total := requiredBytes request
  let isPrimary := mappedFile request.candidate.files (primary request.policy)
  let sourceIds := sourceIdsOf mappings
  { outcome := .matched
    mode := some mode
    reason := modeReason mode
    sourceIds
    mappings
    mappedBytes := sumU64 (mappings.map FileMapping.size)
    missingBytes := total - mappedRequired request mappings
    presentRatio := ratioFromBytes (mappedRequired request mappings) total
    requiresRecheck := true
    evidence :=
      { baseEvidence request with
        compatibleSources
        mappedFiles := mappings.length
        mappedPrimaryFiles := mappings.countP isPrimary
        mappedPrimaryBytes := sumU64 ((mappings.filter isPrimary).map FileMapping.size)
        exactPathMappings :=
          mappings.countP (fun mapping => mapping.candidatePath = mapping.sourcePath)
        qbitSources := sourceIds.countP (fun id => request.sources.any (fun source =>
          source.id = id && source.kind = .qbittorrentTorrent)) } }

end

/-! ### The choice -/

/-- The key that ranks decisions; fewer sources rank higher. -/
abbrev Quality := ℕ ×ₗ ℕ ×ₗ ℕ ×ₗ ℕᵒᵈ ×ₗ ℕ ×ₗ ℕ

/-- The modes, from the weakest to the strictest. -/
def modeRank : Option MatchMode → ℕ
  | some .strict => 4
  | some .flexible => 3
  | some .partialMatch => 2
  | some .seasonFromEpisodes => 1
  | none => 0

/-- What decisions are compared by. -/
def quality (d : MatchDecision) : Quality :=
  toLex (modeRank d.mode, toLex (d.evidence.mappedPrimaryBytes, toLex (d.evidence.exactPathMappings,
    toLex (OrderDual.toDual d.sourceIds.length, toLex (d.evidence.qbitSources,
      d.mappings.length)))))

/-- The order in which `choose` looks at decisions. -/
def Better (d d' : MatchDecision) : Prop := quality d' ≤ quality d

instance : DecidableRel Better := fun d d' => inferInstanceAs (Decidable (quality d' ≤ quality d))

/-- The best decision; it is ambiguous if the second one is as good and maps other files. -/
def choose (choices : List MatchDecision) : Option MatchDecision :=
  match choices.insertionSort Better with
  | [] => none
  | [first] => some first
  | first :: second :: _ =>
    if quality first = quality second ∧ first.mappings ≠ second.mappings then
      some (rejection .ambiguousFileMapping first.evidence)
    else some first

/-- The reasons, from the one that is told first. -/
def priority : List MatchReason :=
  [.matcherBudgetExceeded, .seriesConflict, .mediaTypeConflict, .seasonConflict, .episodeConflict,
    .dateConflict, .yearConflict, .titleConflict, .fileSizeConflict, .noPrimaryVideoOverlap]

/-- The first of the reasons in the order of their priority. -/
def bestReason (reasons : List MatchReason) : MatchReason :=
  (priority.find? (reasons.contains ·)).getD .noPlausibleSource

/-! ### One source -/

/-- What comes of one source. -/
inductive SourceEvaluation where
  | decision (d : MatchDecision)
  | ambiguous
  | noMatch (reason : MatchReason)
  deriving DecidableEq, Repr

/-- The files of the candidate that are not padding, in the order of their ordinals. -/
def candidateFiles (manifest : TorrentManifest) : List TorrentFile :=
  (manifest.files.filter (fun file => !file.padding)).insertionSort (ByKey TorrentFile.ordinal)

/-- The mapping of a pair of indices. -/
def buildMapping (candidates : List TorrentFile) (sources : List SourceFile)
    (pair : ℕ × ℕ × ℕ) : Option FileMapping :=
  match candidates[pair.1]?, sources[pair.2.1]? with
  | some candidate, some (sourceId, source) =>
    some
      { candidateOrdinal := candidate.ordinal
        sourceId
        sourceFileId := source.id
        candidatePath := candidate.path
        sourcePath := source.path
        size := candidate.size
        score := pair.2.2 }
  | _, _ => none

/-- The mappings of an assignment, in the order of the candidate's files. -/
def buildMappings (candidates : List TorrentFile) (sources : List SourceFile)
    (assignment : Assignment) : List FileMapping :=
  (assignment.pairs.filterMap (buildMapping candidates sources)).insertionSort
    (ByKey FileMapping.candidateOrdinal)

/-- Why no required file is mapped. -/
def fileFailureReason (candidates : List TorrentFile) (sources : List SourceFile)
    (policy : MatchingPolicy) : MatchReason :=
  if candidates.any (fun candidate => required policy candidate && sources.any (fun source =>
      (candidate.path = source.2.path || basename candidate.path = basename source.2.path)
        && candidate.size ≠ source.2.size)) then .fileSizeConflict
  else .noPrimaryVideoOverlap

/-- The mode of an assignment to one source. -/
def sourceMode (policy : MatchingPolicy) (files : List TorrentFile) (mappings : List FileMapping) :
    Option MatchMode :=
  let needed := files.filter (required policy)
  let allRequired := needed.all (fun file =>
    (mappings.map FileMapping.candidateOrdinal).contains file.ordinal)
  let exactRequired := needed.all (fun file => mappings.any (fun mapping =>
    mapping.candidateOrdinal = file.ordinal && mapping.candidatePath = mapping.sourcePath))
  let mappedPrimary := mappings.countP (mappedFile files (primary policy))
  if allRequired && exactRequired then some .strict
  else if allRequired && policy.allowFlexible then some .flexible
  else if 0 < mappedPrimary && policy.allowPartial then some .partialMatch
  else none

/-- The files of a source, with its id. -/
def sourceFiles (source : LocalSourceManifest) : List SourceFile := source.files.map (source.id, ·)

section

variable (U : Unicode) (request : MatchRequest)

/-- `evaluate_source`. -/
def evaluateSource (source : LocalSourceManifest) : SourceEvaluation :=
  let files := candidateFiles request.candidate
  match assign U request.policy files (sourceFiles source) with
  | .error .budgetExceeded => .noMatch .matcherBudgetExceeded
  | .ok assignment =>
    if assignment.ambiguous then .ambiguous
    else
      let mappings := buildMappings files (sourceFiles source) assignment
      match sourceMode request.policy files mappings with
      | none => .noMatch (fileFailureReason files (sourceFiles source) request.policy)
      | some mode => .decision (decision request mode mappings 1)

/-- The sources of episodes of the candidate's season. -/
def isEpisodeSource (source : LocalSourceManifest) : Bool :=
  (compatible request.candidateRelease source.release true).isOk
    && source.release.kind = .episode
    && source.release.season = request.candidateRelease.season

/-- The files of the sources that are episodes of the candidate's season. -/
def episodeSources (sources : List LocalSourceManifest) : List SourceFile :=
  (sources.filter (isEpisodeSource request)).flatMap sourceFiles

/-- `evaluate_season`. -/
def evaluateSeason (sources : List LocalSourceManifest) : SourceEvaluation :=
  if (episodeSources request sources).isEmpty then .noMatch .noPrimaryVideoOverlap
  else
    let files := candidateFiles request.candidate
    match assignSeason U request.policy files (episodeSources request sources) with
    | .error .budgetExceeded => .noMatch .matcherBudgetExceeded
    | .ok assignment =>
      if assignment.ambiguous then .ambiguous
      else
        let mappings := buildMappings files (episodeSources request sources) assignment
        if !mappings.any (mappedFile files (primary request.policy)) then
          .noMatch .noPrimaryVideoOverlap
        else .decision (decision request .seasonFromEpisodes mappings
          (mappings.map FileMapping.sourceId).dedup.length)

/-! ### The request -/

/-- Some source has the candidate's info hash. -/
def sharesHash : Bool :=
  request.sources.any (fun source =>
    (request.candidate.hashes.v1.isSome && request.candidate.hashes.v1 = source.hashes.v1)
      || (request.candidate.hashes.v2.isSome && request.candidate.hashes.v2 = source.hashes.v2))

/-- Count the files of a source, within the limits. -/
def addSourceFiles (candidates total : ℕ) (source : LocalSourceManifest) : Option ℕ :=
  if source.files.length ≤ request.policy.maxAssignmentFiles - candidates
      ∧ total + source.files.length ≤ request.policy.maxAssignmentFiles then
    some (total + source.files.length)
  else none

/-- `input_budget_exceeded`. -/
def inputBudgetExceeded : Bool :=
  let candidates := request.candidate.files.countP (fun file => !file.padding)
  if candidates > request.policy.maxAssignmentFiles then true
  else ((request.sources.filter LocalSourceManifest.available).foldlM
    (addSourceFiles request candidates) candidates).isNone

/-- The decisions and the reasons collected so far. -/
structure Collected where
  choices : List MatchDecision
  conflicts : List MatchReason

/-- Add an evaluation; an ambiguous one ends the evaluation of the request. -/
def Collected.add (acc : Collected) : SourceEvaluation → Option Collected
  | .decision d => some { acc with choices := acc.choices ++ [d] }
  | .ambiguous => none
  | .noMatch reason => some { acc with conflicts := acc.conflicts ++ [reason] }

/-- The evaluation of a source, or the reason why its release does not fit. -/
def evaluateRelease (source : LocalSourceManifest) : SourceEvaluation :=
  match compatible request.candidateRelease source.release false with
  | .ok () => evaluateSource U request source
  | .error reason => .noMatch reason

/-- Season packs may be assembled from episodes. -/
def seasonConsidered : Bool :=
  request.policy.allowSeasonFromEpisodes && request.candidateRelease.kind = .seasonPack

/-- The choice from the episodes, if it is considered. -/
def collectSeason (sources : List LocalSourceManifest) (acc : Collected) : Option Collected :=
  if seasonConsidered request then acc.add (evaluateSeason U request sources) else some acc

/-- The sources that are available, by their identifiers. -/
def availableSources : List LocalSourceManifest :=
  (request.sources.filter LocalSourceManifest.available).insertionSort
    (ByKey fun source => source.id.toNat)

/-- The choice from one more source. -/
def collectSource (acc : Collected) (source : LocalSourceManifest) : Option Collected :=
  acc.add (evaluateRelease U request source)

/-- The choices of all sources; none if one of them is ambiguous. -/
def collect : Option Collected :=
  ((availableSources request).foldlM (collectSource U request) ⟨[], []⟩).bind
    (collectSeason U request (availableSources request))

/-- `PureMatcher::evaluate`. -/
def evaluate : MatchDecision :=
  let evidence := baseEvidence request
  match validateManifest U request.candidate with
  | some reason => rejection reason evidence
  | none =>
    if sharesHash request then absence request .alreadyPresent .alreadyPresent evidence
    else if inputBudgetExceeded request then rejection .matcherBudgetExceeded evidence
    else match collect U request with
      | none => rejection .ambiguousFileMapping evidence
      | some acc => (choose acc.choices).getD (noMatch request (bestReason acc.conflicts) evidence)

end

/-! ### Requests over ASCII names -/

/-- A source of files given by name and size. -/
def sourceOf (id : ℕ) (name : String) (files : List (String × ℕ)) : LocalSourceManifest where
  id := BitVec.ofNat 128 id
  kind := .dataDirectoryRelease
  release := parseRelease Unicode.ascii name.toList
  hashes := ⟨none, none⟩
  files := files.zipIdx.map (fun file => ⟨file.2, file.1.1.toList, file.1.2, none, none⟩)
  available := true

/-- A candidate of files given by name and size, against some sources, under the default policy. -/
def requestOf (name : String) (files : List (String × ℕ)) (sources : List LocalSourceManifest) :
    MatchRequest where
  candidate :=
    { hashes := ⟨none, none⟩
      files := files.zipIdx.map (fun file => ⟨file.2, file.1.1.toList, file.1.2, false⟩)
      pieceLength := none
      pieceFiles := [] }
  candidateRelease := parseRelease Unicode.ascii name.toList
  sources
  policy := MatchingPolicy.default

/-- A release whose only file was renamed is a flexible match. -/
example : (evaluate Unicode.ascii (requestOf "Film.2020" [("Film.2020.mkv", 10)]
    [sourceOf 1 "Film.2020" [("f.mkv", 10)]])).mode = some .flexible := by decide +kernel

end Sporos.Matcher.Evaluate

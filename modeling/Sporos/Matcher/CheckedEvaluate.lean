import Sporos.Matcher.CheckedAssign
import Sporos.Matcher.Soundness

/-! # The matcher on machine numbers

`PureMatcher::evaluate` of `matcher.rs` with the checked assignment: the indices of the pairs, the
`u64` sums of sizes and the `u128` product of the ratio are checked as well. A candidate whose size
is a `u64` is evaluated without a failure, because its mappings map different files of it. -/

namespace Sporos.Matcher.CheckedEvaluate

open Sporos.Model.Matching
open Sporos.Matcher.Release
open Sporos.Matcher.Files
open Sporos.Matcher.Assign (Assignment SourceFile)
open Sporos.Matcher.Evaluate (MatchRequest SourceEvaluation Collected baseEvidence rejection
  mappedFile sourceIdsOf modeReason choose bestReason candidateFiles sourceFiles fileFailureReason
  sourceMode compatible
  sharesHash inputBudgetExceeded seasonConsidered availableSources episodeSources)
open Sporos.Matcher.CheckedAssign (assignWith Limits)
open Sporos.Lib.Lists (ByKey)
open Sporos.Lib.Checked

/-- `Ratio::from_bytes`. -/
def ratioFromBytes (present total : ℕ) : Except Fault ℕ := do
  if total = 0 then return 0
  else
    let scaled ← u128 (present * 1000000)
    return scaled / total % 2 ^ 32

section

variable (request : MatchRequest)

/-- `required_bytes`. -/
def requiredBytes : Except Fault ℕ :=
  sum u64 ((request.candidate.files.filter (required request.policy)).map TorrentFile.size)

/-- A decision without mappings that reports what is missing. -/
def absence (outcome : MatchOutcome) (reason : MatchReason) (evidence : MatchEvidence) :
    Except Fault MatchDecision := do
  return {
    outcome
    mode := none
    reason
    sourceIds := []
    mappings := []
    mappedBytes := 0
    missingBytes := ← requiredBytes request
    presentRatio := 0
    requiresRecheck := false
    evidence }

/-- `decision`. -/
def decision (mode : MatchMode) (mappings : List FileMapping) (compatibleSources : ℕ) :
    Except Fault MatchDecision := do
  let mappedBytes ← sum u64 (mappings.map FileMapping.size)
  let total ← requiredBytes request
  let mappedRequired ← sum u64 ((mappings.filter
    (mappedFile request.candidate.files (required request.policy))).map FileMapping.size)
  let sourceIds := sourceIdsOf mappings
  let isPrimary := mappedFile request.candidate.files (primary request.policy)
  let mappedPrimaryBytes ← sum u64 ((mappings.filter isPrimary).map FileMapping.size)
  let presentRatio ← ratioFromBytes mappedRequired total
  return {
    outcome := .matched
    mode := some mode
    reason := modeReason mode
    sourceIds
    mappings
    mappedBytes
    missingBytes := total - mappedRequired
    presentRatio
    requiresRecheck := true
    evidence :=
      { baseEvidence request with
        compatibleSources
        mappedFiles := mappings.length
        mappedPrimaryFiles := mappings.countP isPrimary
        mappedPrimaryBytes
        exactPathMappings :=
          mappings.countP (fun mapping => mapping.candidatePath = mapping.sourcePath)
        qbitSources := sourceIds.countP (fun id => request.sources.any (fun source =>
          source.id = id && source.kind = .qbittorrentTorrent)) } }

end

/-- The mapping of a pair of indices. -/
def buildMapping (candidates : List TorrentFile) (sources : List SourceFile) (pair : ℕ × ℕ × ℕ) :
    Except Fault FileMapping := do
  let candidate ← getAt candidates pair.1
  let source ← getAt sources pair.2.1
  return {
    candidateOrdinal := candidate.ordinal
    sourceId := source.1
    sourceFileId := source.2.id
    candidatePath := candidate.path
    sourcePath := source.2.path
    size := candidate.size
    score := pair.2.2 }

/-- `build_mappings`. -/
def buildMappings (candidates : List TorrentFile) (sources : List SourceFile)
    (assignment : Assignment) : Except Fault (List FileMapping) := do
  return (← assignment.pairs.mapM (buildMapping candidates sources)).insertionSort
    (ByKey FileMapping.candidateOrdinal)

section

variable (U : Unicode) (request : MatchRequest)

/-- `evaluate_source`. -/
def evaluateSource (source : LocalSourceManifest) : Except Fault SourceEvaluation := do
  let files := candidateFiles request.candidate
  match ← assignWith request.policy files (sourceFiles source)
    (edgeScore U request.policy false) with
  | .error .budgetExceeded => return .noMatch .matcherBudgetExceeded
  | .ok assignment =>
    if assignment.ambiguous then return .ambiguous
    else do
      let mappings ← buildMappings files (sourceFiles source) assignment
      match sourceMode request.policy files mappings with
      | none => return .noMatch (fileFailureReason files (sourceFiles source) request.policy)
      | some mode => return .decision (← decision request mode mappings 1)

/-- `evaluate_season`. -/
def evaluateSeason (sources : List LocalSourceManifest) : Except Fault SourceEvaluation := do
  if (episodeSources request sources).isEmpty then return .noMatch .noPrimaryVideoOverlap
  else
    let files := candidateFiles request.candidate
    match ← assignWith request.policy files (episodeSources request sources)
        (edgeScore U request.policy true) with
    | .error .budgetExceeded => return .noMatch .matcherBudgetExceeded
    | .ok assignment =>
      if assignment.ambiguous then return .ambiguous
      else do
        let mappings ← buildMappings files (episodeSources request sources) assignment
        if !mappings.any (mappedFile files (primary request.policy)) then
          return .noMatch .noPrimaryVideoOverlap
        else return .decision (← decision request .seasonFromEpisodes mappings
          (mappings.map FileMapping.sourceId).dedup.length)

/-- The evaluation of a source, or the reason why its release does not fit. -/
def evaluateRelease (source : LocalSourceManifest) : Except Fault SourceEvaluation :=
  match compatible request.candidateRelease source.release false with
  | .ok () => evaluateSource U request source
  | .error reason => .ok (.noMatch reason)

/-- The choice from the episodes, if it is considered. -/
def collectSeason (sources : List LocalSourceManifest) (acc : Collected) :
    Except Fault (Option Collected) := do
  if seasonConsidered request then return acc.add (← evaluateSeason U request sources)
    else return some acc

/-- The loop over the sources. -/
def collectSources : List LocalSourceManifest → Collected → Except Fault (Option Collected)
  | [], acc => .ok (some acc)
  | source :: sources, acc => do
    match acc.add (← evaluateRelease U request source) with
    | none => return none
    | some acc => collectSources sources acc

/-- The choices of all sources; none if one of them is ambiguous. -/
def collect : Except Fault (Option Collected) := do
  match ← collectSources U request (availableSources request) ⟨[], []⟩ with
  | none => return none
  | some acc => collectSeason U request (availableSources request) acc

/-- **`PureMatcher::evaluate`.** -/
def evaluate : Except Fault MatchDecision :=
  let evidence := baseEvidence request
  match validateManifest U request.candidate with
  | some reason => .ok (rejection reason evidence)
  | none =>
    if sharesHash request then absence request .alreadyPresent .alreadyPresent evidence
    else if inputBudgetExceeded request then .ok (rejection .matcherBudgetExceeded evidence)
    else do
      match ← collect U request with
      | none => return rejection .ambiguousFileMapping evidence
      | some acc =>
        match choose acc.choices with
        | some d => return d
        | none => absence request .noMatch (bestReason acc.conflicts) evidence

end

/-! ### The sums -/

section

variable {request : MatchRequest}
  (hsizes : (request.candidate.files.map TorrentFile.size).sum < 2 ^ 64)
include hsizes

theorem required_sum_lt :
    ((request.candidate.files.filter (required request.policy)).map TorrentFile.size).sum <
      2 ^ 64 :=
  lt_of_le_of_lt ((List.filter_sublist.map _).sum_le_sum fun _ _ => Nat.zero_le _) hsizes

theorem requiredBytes_eq : requiredBytes request = .ok (Evaluate.requiredBytes request) := by
  have hlt := required_sum_lt hsizes
  unfold requiredBytes Evaluate.requiredBytes
  rw [sumU64_eq hlt, sum_eq fun n hn => u64_eq (by omega)]

theorem absence_eq (outcome : MatchOutcome) (reason : MatchReason) (evidence : MatchEvidence) :
    absence request outcome reason evidence =
      .ok (Evaluate.absence request outcome reason evidence) := by
  unfold absence
  rw [requiredBytes_eq hsizes]
  rfl

/-- **A decision** about mappings of different files of the candidate. -/
theorem decision_eq {mappings : List FileMapping}
    (hnodup : (mappings.map FileMapping.candidateOrdinal).Nodup)
    (hfiles : ∀ m ∈ mappings, ∃ file ∈ request.candidate.files, file.ordinal = m.candidateOrdinal ∧
      file.size = m.size) (mode : MatchMode) (n : ℕ) :
    decision request mode mappings n = .ok (Evaluate.decision request mode mappings n) := by
  have hsum : ∀ l : List FileMapping, l.Sublist mappings →
      (l.map FileMapping.size).sum < 2 ^ 64 := fun l hl =>
    lt_of_le_of_lt (((hl.map _).sum_le_sum fun _ _ => Nat.zero_le _).trans
      (Soundness.sum_mapped_le mappings _ hnodup hfiles)) hsizes
  have hchecked : ∀ l : List FileMapping, l.Sublist mappings →
      sum u64 (l.map FileMapping.size) = .ok (sumU64 (l.map FileMapping.size)) := fun l hl => by
    have := hsum l hl
    rw [sumU64_eq this, sum_eq fun n hn => u64_eq (by omega)]
  have hratio : ratioFromBytes (Evaluate.mappedRequired request mappings)
    (Evaluate.requiredBytes request) =
      .ok (Model.Matching.ratioFromBytes (Evaluate.mappedRequired request mappings)
        (Evaluate.requiredBytes request)) := by
    have hlt : Evaluate.mappedRequired request mappings < 2 ^ 64 := Nat.mod_lt _ (by norm_num)
    unfold ratioFromBytes Model.Matching.ratioFromBytes
    split_ifs with hzero
    · rfl
    · rw [u128_eq (by omega), ok_bind]
      rfl
  have hrequired := hchecked _ (List.filter_sublist (p := mappedFile request.candidate.files
    (required request.policy)))
  change _ = Except.ok (Evaluate.mappedRequired request mappings) at hrequired
  unfold decision
  rw [hchecked _ (List.Sublist.refl _), ok_bind, requiredBytes_eq hsizes, ok_bind,
    hrequired, ok_bind]
  simp only
  rw [hchecked _ List.filter_sublist, ok_bind, hratio]
  rfl

end

/-! ### The evaluation -/

section

variable {U : Unicode} {request : MatchRequest} {sources : List SourceFile} {seasonMode : Bool}

/-- What the evaluation relies on. -/
structure Fits (request : MatchRequest) : Prop where
  limits : Limits request.policy
  sizes : (request.candidate.files.map TorrentFile.size).sum < 2 ^ 64
  ordinals : (request.candidate.files.map TorrentFile.ordinal).Nodup

theorem Fits.assignWith_eq (h : Fits request) :
    assignWith request.policy (candidateFiles request.candidate) sources
      (edgeScore U request.policy seasonMode) =
      .ok (Assign.assignWith request.policy (candidateFiles request.candidate) sources
        (edgeScore U request.policy seasonMode)) := by
  refine CheckedAssign.assignWith_eq h.limits ?_ fun file source v hv =>
    ⟨(edgeScore_eq_some hv).2.2.2.2, edgeScore_le hv⟩
  have hperm : (candidateFiles request.candidate).Perm (request.candidate.files.filter
      fun file => !file.padding) :=
    List.perm_insertionSort _ _
  rw [(hperm.map TorrentFile.size).sum_eq]
  exact lt_of_le_of_lt ((List.filter_sublist.map _).sum_le_sum fun _ _ => Nat.zero_le _) h.sizes

theorem nodup_candidateFiles (h : Fits request) :
    ((candidateFiles request.candidate).map TorrentFile.ordinal).Nodup := by
  have hperm : (candidateFiles request.candidate).Perm (request.candidate.files.filter
      fun file => !file.padding) :=
    List.perm_insertionSort _ _
  rw [(hperm.map TorrentFile.ordinal).nodup_iff]
  exact h.ordinals.sublist (List.filter_sublist.map _)

section

variable {pairs : List (ℕ × ℕ × ℕ)}
variable (hassign : Assign.assignWith request.policy (candidateFiles request.candidate) sources
  (edgeScore U request.policy seasonMode) = .ok ⟨pairs, false⟩)
include hassign

/-- The pairs are indices of the two lists. -/
theorem buildMappings_eq : buildMappings (candidateFiles request.candidate) sources ⟨pairs, false⟩ =
    .ok (Evaluate.buildMappings (candidateFiles request.candidate) sources ⟨pairs, false⟩) := by
  have hpos := Invariance.edgeScore_pos U request.policy seasonMode
  have hraw := (Heaviest.assignWith_ok hpos hassign).2.2
  have hpair : ∀ p ∈ pairs, ∃ m, buildMapping (candidateFiles request.candidate) sources p = .ok m ∧
      Evaluate.buildMapping (candidateFiles request.candidate) sources p = some m := by
    intro p hp
    have hedge := hraw p hp
    have hsource := (Heaviest.isGraph_allEdges _ _ _ hpos).lt _ _ _ hedge
    have hcandidate := Heaviest.rawAt_lt (by rw [hedge]; simp :
      Assign.rawAt (Heaviest.allEdges request.policy (candidateFiles request.candidate) sources
        (edgeScore U request.policy seasonMode)) p.1 p.2.1 ≠ none)
    rw [Heaviest.length_allEdges] at hcandidate
    unfold buildMapping Evaluate.buildMapping
    rw [getAt_eq (List.getElem?_eq_getElem hcandidate), ok_bind,
      getAt_eq (List.getElem?_eq_getElem hsource), ok_bind, List.getElem?_eq_getElem hcandidate,
      List.getElem?_eq_getElem hsource]
    exact ⟨_, rfl, rfl⟩
  have hmap : ∀ l : List (ℕ × ℕ × ℕ), (∀ p ∈ l, p ∈ pairs) →
      l.mapM (buildMapping (candidateFiles request.candidate) sources) =
        .ok (l.filterMap (Evaluate.buildMapping (candidateFiles request.candidate) sources)) := by
    intro l hl
    induction l with
    | nil => rfl
    | cons p l ih =>
      obtain ⟨m, hm, hm'⟩ := hpair p (hl p (by simp))
      rw [List.mapM_cons, hm, ok_bind, ih fun q hq => hl q (List.mem_cons_of_mem p hq), ok_bind,
        List.filterMap_cons_some hm']
      rfl
  unfold buildMappings Evaluate.buildMappings
  rw [hmap pairs fun p hp => hp]
  rfl

theorem Fits.decision_eq (h : Fits request) (mode : MatchMode) (n : ℕ) :
    decision request mode (Evaluate.buildMappings (candidateFiles request.candidate) sources ⟨pairs,
      false⟩) n =
      .ok (Evaluate.decision request mode
        (Evaluate.buildMappings (candidateFiles request.candidate) sources ⟨pairs, false⟩) n) := by
  refine CheckedEvaluate.decision_eq h.sizes
    (Soundness.nodup_ordinals (nodup_candidateFiles h) hassign)
    (fun m hm => ?_) mode n
  obtain ⟨file, -, hfile, -, hordinal, -, hsize, -⟩ := Soundness.mapping_score hassign hm
  exact ⟨file, (Soundness.mem_candidateFiles.mp hfile).1, hordinal.symm, hsize.symm⟩

end

theorem evaluateSource_eq (h : Fits request) (source : LocalSourceManifest) :
    evaluateSource U request source = .ok (Evaluate.evaluateSource U request source) := by
  unfold evaluateSource Evaluate.evaluateSource Assign.assign
  simp only
  rw [h.assignWith_eq, ok_bind]
  cases hassign : Assign.assignWith request.policy (candidateFiles request.candidate)
    (sourceFiles source)
      (edgeScore U request.policy false) with
  | error e => cases e; rfl
  | ok a =>
    obtain ⟨pairs, ambiguous⟩ := a
    cases ambiguous with
    | true => rfl
    | false =>
      simp only [Bool.false_eq_true, if_false]
      rw [buildMappings_eq hassign, ok_bind]
      cases sourceMode request.policy (candidateFiles request.candidate) _ with
      | none => rfl
      | some mode =>
        simp only
        rw [h.decision_eq hassign]
        rfl

theorem evaluateSeason_eq (h : Fits request) (sources : List LocalSourceManifest) :
    evaluateSeason U request sources = .ok (Evaluate.evaluateSeason U request sources) := by
  unfold evaluateSeason Evaluate.evaluateSeason Assign.assignSeason
  split_ifs with hempty
  · rfl
  simp only
  rw [h.assignWith_eq, ok_bind]
  cases hassign : Assign.assignWith request.policy (candidateFiles request.candidate)
      (episodeSources request sources) (edgeScore U request.policy true) with
  | error e => cases e; rfl
  | ok a =>
    obtain ⟨pairs, ambiguous⟩ := a
    cases ambiguous with
    | true => rfl
    | false =>
      simp only [Bool.false_eq_true, if_false]
      rw [buildMappings_eq hassign, ok_bind]
      split_ifs with hprimary
      · rfl
      · rw [h.decision_eq hassign]
        rfl

theorem evaluateRelease_eq (h : Fits request) (source : LocalSourceManifest) :
    evaluateRelease U request source = .ok (Evaluate.evaluateRelease U request source) := by
  unfold evaluateRelease Evaluate.evaluateRelease
  cases compatible request.candidateRelease source.release false with
  | error reason => rfl
  | ok => exact evaluateSource_eq h source

theorem collectSources_eq (h : Fits request) :
    ∀ (sources : List LocalSourceManifest) (acc : Collected),
    collectSources U request sources acc =
      .ok (sources.foldlM (Evaluate.collectSource U request) acc)
  | [], _ => rfl
  | source :: sources, acc => by
    unfold collectSources
    rw [evaluateRelease_eq h, ok_bind, List.foldlM_cons, Evaluate.collectSource]
    cases acc.add (Evaluate.evaluateRelease U request source) with
    | none => rfl
    | some acc => exact collectSources_eq h sources acc

theorem collect_eq (h : Fits request) : collect U request = .ok (Evaluate.collect U request) := by
  unfold collect Evaluate.collect
  rw [collectSources_eq h, ok_bind]
  cases (availableSources request).foldlM (Evaluate.collectSource U request) ⟨[], []⟩ with
  | none => rfl
  | some acc =>
    rw [Option.bind_some]
    unfold collectSeason Evaluate.collectSeason
    split_ifs with hseason
    · rw [evaluateSeason_eq h]
      rfl
    · rfl

/-- **The matcher** leaves no range and no vector: on checked numbers it decides what it does on
unbounded ones. -/
theorem evaluate_eq (hlimits : Limits request.policy)
    (hsizes : (request.candidate.files.map TorrentFile.size).sum < 2 ^ 64) :
    evaluate U request = .ok (Evaluate.evaluate U request) := by
  unfold evaluate Evaluate.evaluate
  cases hvalid : validateManifest U request.candidate with
  | some reason => rfl
  | none =>
    have hfits : Fits request :=
      ⟨hlimits, hsizes, (validateManifest_eq_none.mp hvalid).2.2.ordinals⟩
    simp only
    split_ifs with hhash hbudget
    · exact absence_eq hsizes _ _ _
    · rfl
    · rw [collect_eq hfits, ok_bind]
      cases Evaluate.collect U request with
      | none => rfl
      | some acc =>
        simp only
        cases choose acc.choices with
        | some d => rfl
        | none => exact absence_eq hsizes _ _ _

end

end Sporos.Matcher.CheckedEvaluate

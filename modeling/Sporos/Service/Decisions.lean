import Sporos.Matcher.Soundness
import Sporos.Service.StoredDecisions

/-! # What an evaluation decides

When an evaluation ends with a candidate that is present already (`already_present_iff`), and that
the evaluation of sources that are complete and loaded stores and returns what the matcher says
(`evaluation_refines`). -/

namespace Sporos.Service.Decisions

open Sporos.Model.Matching
open Sporos.Matcher.Release (Unicode)
open Sporos.Matcher.Files (validateManifest required)
open Sporos.Matcher.Evaluate hiding sourceFiles
open Sporos.Matcher.Soundness
open Sporos.Matcher.Invariance (foldlM_addSourceFiles)
open Sporos.Service.Tables
open Sporos.Service.Sources
open Sporos.Service.SourceFacts
open Sporos.Service.Selection
open Sporos.Service.Evaluation
open Sporos.Service.StoredDecisions
open Sporos.Lib.Loop
open Sporos.Lib.Lists

/-! ### The outcomes of the matcher -/

section

variable {U : Unicode} {request : MatchRequest}

theorem choose_cases {choices : List MatchDecision} {d : MatchDecision}
    (h : choose choices = some d) :
    d ∈ choices ∨ ∃ evidence, d = rejection .ambiguousFileMapping evidence := by
  unfold choose at h
  have hmem : ∀ d, d ∈ choices.insertionSort Better → d ∈ choices :=
    fun d => (List.mem_insertionSort Better).mp
  split at h
  · cases h
  · rename_i heq
    exact .inl (hmem d (by rw [heq, Option.some.inj h]; simp))
  · rename_i heq
    split_ifs at h
    · exact .inr ⟨_, (Option.some.inj h).symm⟩
    · exact .inl (hmem d (by rw [heq, Option.some.inj h]; simp))

/-- A decision that the matcher has collected is a match. -/
theorem outcome_of_collect {acc : Collected} (h : collect U request = some acc) {d : MatchDecision}
    (hd : d ∈ acc.choices) : d.outcome = .matched := by
  rcases (mem_collect h d).mp hd with ⟨source, -, hdecision⟩ | ⟨-, hdecision⟩
  · obtain ⟨pairs, mode, -, -, rfl⟩ :=
      evaluateSource_decision (evaluateRelease_decision.mp hdecision).2
    rfl
  · obtain ⟨pairs, -, -, n, rfl⟩ := evaluateSeason_decision hdecision
    rfl

/-- **The matcher finds the candidate present** if, and only if, a source has its info hash. -/
theorem outcome_alreadyPresent_iff (hvalid : validateManifest U request.candidate = none) :
    (evaluate U request).outcome = .alreadyPresent ↔ sharesHash request = true := by
  unfold evaluate
  simp only [hvalid]
  split
  · rename_i hhash
    simp [absence, hhash]
  · rename_i hhash
    refine iff_of_false (fun houtcome => ?_) hhash
    split at houtcome
    · cases houtcome
    · split at houtcome
      · cases houtcome
      · rename_i acc hcollect
        cases hchoose : choose acc.choices with
        | none =>
          rw [hchoose] at houtcome
          cases houtcome
        | some d =>
          rw [hchoose] at houtcome
          have houtcome : d.outcome = .alreadyPresent := houtcome
          rcases choose_cases hchoose with hmem | ⟨evidence, hrejected⟩
          · rw [outcome_of_collect hcollect hmem] at houtcome
            cases houtcome
          · rw [hrejected] at houtcome
            cases houtcome

/-- What the matcher says about a candidate that is present. -/
theorem evaluate_of_sharesHash (hvalid : validateManifest U request.candidate = none)
    (hhash : sharesHash request = true) :
    evaluate U request =
      absence request .alreadyPresent .alreadyPresent (baseEvidence request) := by
  unfold evaluate
  simp only [hvalid, if_pos hhash]

/-- A decision that is not a match maps nothing. -/
theorem evaluate_unmatched (h : (evaluate U request).outcome ≠ .matched) :
    (evaluate U request).mappings = [] ∧ (evaluate U request).mappedBytes = 0
      ∧ (evaluate U request).missingBytes ≤ requiredBytes request := by
  unfold evaluate at h ⊢
  dsimp only at h ⊢
  cases hvalid : validateManifest U request.candidate with
  | some reason => exact ⟨rfl, rfl, Nat.zero_le _⟩
  | none =>
    rw [hvalid] at h
    dsimp only at h ⊢
    split_ifs at h ⊢
    · exact ⟨rfl, rfl, le_rfl⟩
    · exact ⟨rfl, rfl, Nat.zero_le _⟩
    · cases hcollect : collect U request with
      | none => exact ⟨rfl, rfl, Nat.zero_le _⟩
      | some acc =>
        rw [hcollect] at h
        dsimp only at h ⊢
        cases hchoose : choose acc.choices with
        | none => exact ⟨rfl, rfl, le_rfl⟩
        | some d =>
          rw [hchoose] at h
          rcases choose_cases hchoose with hmem | ⟨evidence, rfl⟩
          · exact absurd (outcome_of_collect hcollect hmem) h
          · exact ⟨rfl, rfl, Nat.zero_le _⟩

/-- The decisions of the matcher can be stored where the bytes of the candidate and the ids of the
files are integers of a column. -/
theorem storable_evaluate (hbytes : (request.candidate.files.map TorrentFile.size).sum ≤ i64Max)
    (hids : ∀ source ∈ request.sources, ∀ file ∈ source.files, file.id ≤ i64Max) :
      Storable (evaluate U request) := by
  have hsum : (request.candidate.files.map TorrentFile.size).sum < 2 ^ 64 := by
    unfold i64Max at hbytes
    omega
  have htotal : totalRequired request ≤ (request.candidate.files.map TorrentFile.size).sum :=
    (List.filter_sublist.map _).sum_le_sum fun _ _ => Nat.zero_le _
  by_cases hmatched : (evaluate U request).outcome = .matched
  · obtain ⟨hmapping, hnodup, hsound⟩ := evaluate_mapped hmatched
    have hbytesSound := hsound hsum
    have hmapped : ((evaluate U request).mappings.map FileMapping.size).sum
        ≤ (request.candidate.files.map TorrentFile.size).sum := by
      refine sum_mapped_le _ _ hnodup fun m hm => ?_
      obtain ⟨file, source, sourceFile, hof⟩ := hmapping m hm
      exact ⟨file, hof.file_mem, hof.ordinal.symm, hof.size.symm⟩
    refine ⟨?_, ?_, fun m hm => ?_, fun m hm => ?_⟩
    · rw [hbytesSound.mapped]
      exact hmapped.trans hbytes
    · have hmissing := hbytesSound.missing
      omega
    · obtain ⟨file, source, sourceFile, hof⟩ := hmapping m hm
      rw [hof.sourceFileId]
      exact hids source hof.source_mem sourceFile hof.sourceFile_mem
    · exact (List.le_sum_of_mem (List.mem_map_of_mem hm)).trans (hmapped.trans hbytes)
  · obtain ⟨hmappings, hmapped, hmissing⟩ := evaluate_unmatched hmatched
    have hrequired : requiredBytes request ≤ totalRequired request := Nat.mod_le _ _
    refine ⟨hmapped.trans_le (Nat.zero_le _), by omega, fun m hm => ?_, fun m hm => ?_⟩ <;>
      (rw [hmappings] at hm; exact absurd hm List.not_mem_nil)

/-- The input budget: the files of the candidate and of the available sources. -/
theorem inputBudgetExceeded_iff :
    inputBudgetExceeded request = true
      ↔ request.policy.maxAssignmentFiles < request.candidate.files.countP
        (fun file => !file.padding)
        + ((request.sources.filter LocalSourceManifest.available).map fun source =>
          source.files.length).sum := by
  unfold inputBudgetExceeded
  dsimp only
  split
  · simp only [true_iff]
    omega
  · rw [foldlM_addSourceFiles _ _ _ _ le_rfl]
    generalize request.sources.filter LocalSourceManifest.available = sources
    cases sources with
    | nil => simpa using not_lt.mp ‹_›
    | cons source sources => simp

end

/-! ### Reading the files -/

section

variable {loaded : LoadedCandidate}

theorem length_fileRows_le {files : List SourceFileRow} {sourceId : Id} {version limit : ℕ} :
    (fileRows files sourceId version limit).length ≤ limit
      ↔ (versionFiles files sourceId version).length ≤ limit := by
  rw [fileRows, List.length_take, List.length_insertionSort]
  omega

/-- The files of a version, in their order. -/
def allFiles (files : List SourceFileRow) (sourceId : Id) (version : ℕ) : List LocalSourceFile :=
  ((versionFiles files sourceId version).insertionSort (ByKey SourceFileRow.ordinal)).map localFile

theorem sourceFiles_eq {files : List SourceFileRow} {sourceId : Id} {version limit : ℕ} :
    sourceFiles files sourceId version limit
      = if (versionFiles files sourceId version).length ≤ limit
        then some (allFiles files sourceId version)
        else none := by
  unfold sourceFiles
  by_cases h : (versionFiles files sourceId version).length ≤ limit
  · have hrows : fileRows files sourceId version limit
        = (versionFiles files sourceId version).insertionSort (ByKey SourceFileRow.ordinal) := by
      rw [fileRows, List.take_of_length_le]
      rw [List.length_insertionSort]
      omega
    rw [if_pos h, if_neg (not_lt.mpr (length_fileRows_le.mpr h)), hrows, allFiles]
  · rw [if_neg h, if_pos (not_le.mp fun hle => h (length_fileRows_le.mp hle))]

/-- The source finds no more files than the query counted. -/
def ReadFits (candidate : TorrentManifest) (store : Store) (source : LoadedSource) : Prop :=
  needsFiles candidate source = true →
    (versionFiles store.files source.manifest.id source.manifestVersion).length ≤ source.fileCount

/-- The source with its files. -/
def withFiles (candidate : TorrentManifest) (store : Store)
    (source : LoadedSource) : LoadedSource :=
  if needsFiles candidate source then
    { source with manifest :=
      { source.manifest with
        files := allFiles store.files source.manifest.id source.manifestVersion } }
  else source

theorem loadFiles_eq_some {candidate : TorrentManifest} {store : Store}
    {source source' : LoadedSource} :
    loadFiles candidate store source = some source'
      ↔ ReadFits candidate store source ∧ source' = withFiles candidate store source := by
  unfold loadFiles ReadFits withFiles
  by_cases hneeds : needsFiles candidate source = true
  · simp only [hneeds, if_true, true_imp_iff, sourceFiles_eq]
    split
    · rename_i hle
      rw [Option.map_some, Option.some_inj]
      exact ⟨fun h => ⟨hle, h.symm⟩, fun h => h.2.symm⟩
    · rename_i hover
      exact iff_of_false (by simp) fun h => hover h.1
  · rw [if_neg hneeds, if_neg hneeds, Option.some_inj]
    exact ⟨fun h => ⟨fun hneeds' => absurd hneeds' hneeds, h.symm⟩, fun h => h.2.symm⟩

/-- **The reads succeed** if, and only if, none of them finds more files than the query counted. -/
theorem loadAll_eq {candidate : TorrentManifest} {files : ℕ → Store} :
    ∀ {i : ℕ} {sources sources' : List LoadedSource},
      loadAll candidate files i sources = some sources'
        ↔ (∀ j source, sources[j]? = some source → ReadFits candidate (files (i + j)) source)
          ∧ sources' = sources.mapIdx fun j source => withFiles candidate (files (i + j)) source
  | i, [], sources' => by simp [loadAll, eq_comm]
  | i, source :: sources, sources' => by
    have ih : ∀ {sources'}, loadAll candidate files (i + 1) sources = some sources'
        ↔ (∀ j source, sources[j]? = some source → ReadFits candidate (files (i + (j + 1))) source)
          ∧ sources' = sources.mapIdx fun j source =>
            withFiles candidate (files (i + (j + 1))) source := by
      intro sources'
      have hadd : ∀ j, i + 1 + j = i + (j + 1) := fun j => by omega
      rw [loadAll_eq]
      simp only [hadd]
    have hstep : loadAll candidate files i (source :: sources) = some sources'
        ↔ ∃ source', loadFiles candidate (files i) source = some source'
          ∧ ∃ rest, loadAll candidate files (i + 1) sources = some rest
          ∧ sources' = source' :: rest := by
      rw [show loadAll candidate files i (source :: sources)
        = (loadFiles candidate (files i) source).bind fun source =>
          (loadAll candidate files (i + 1) sources).bind fun sources =>
            some (source :: sources) from rfl]
      constructor
      · intro h
        obtain ⟨source', hsource', h⟩ := Option.bind_eq_some_iff.mp h
        obtain ⟨rest, hrest, h⟩ := Option.bind_eq_some_iff.mp h
        exact ⟨source', hsource', rest, hrest, (Option.some_inj.mp h).symm⟩
      · rintro ⟨source', hsource', rest, hrest, rfl⟩
        simp [hsource', hrest]
    rw [hstep, List.mapIdx_cons]
    constructor
    · rintro ⟨source', hsource', rest, hrest, rfl⟩
      obtain ⟨hfits, rfl⟩ := loadFiles_eq_some.mp hsource'
      obtain ⟨hrests, rfl⟩ := ih.mp hrest
      refine ⟨fun j other hother => ?_, rfl⟩
      cases j with
      | zero =>
        obtain rfl : source = other := by simpa using hother
        exact hfits
      | succ j => exact hrests j other (by simpa using hother)
    · rintro ⟨hfits, rfl⟩
      refine ⟨_, loadFiles_eq_some.mpr ⟨hfits 0 source rfl, rfl⟩, _,
        ih.mpr ⟨fun j other hother => ?_, rfl⟩, rfl⟩
      exact hfits (j + 1) other (by simpa using hother)

theorem withFiles_complete {candidate : TorrentManifest} {store : Store} {source : LoadedSource} :
    (withFiles candidate store source).complete = source.complete
      ∧ (withFiles candidate store source).manifestLoaded = source.manifestLoaded
      ∧ (withFiles candidate store source).manifest.hashes = source.manifest.hashes := by
  unfold withFiles
  split <;> exact ⟨rfl, rfl, rfl⟩

theorem usable_withFiles {candidate : TorrentManifest} {store : Store} {source : LoadedSource} :
    usable candidate (withFiles candidate store source) = usable candidate source
      ∧ sameIdentity candidate (withFiles candidate store source).manifest
        = sameIdentity candidate source.manifest := by
  obtain ⟨hcomplete, hloaded, hhashes⟩ := @withFiles_complete candidate store source
  unfold usable sameIdentity
  rw [hcomplete, hloaded, hhashes]
  exact ⟨rfl, rfl⟩

/-- The files of the candidate and of the sources that need theirs are within the limit. -/
def FitsBudget (loaded : LoadedCandidate) (sources : List LoadedSource) : Prop :=
  needing loaded.manifest sources = []
    ∨ candidateFileCount loaded.manifest
      + ((needing loaded.manifest sources).map LoadedSource.fileCount).sum
      ≤ loaded.policy.matching.maxAssignmentFiles

/-- No read of files finds more than the query counted. -/
def ReadsFit (loaded : LoadedCandidate) (reads : Reads) (sources : List LoadedSource) : Prop :=
  ∀ i source, sources[i]? = some source → ReadFits loaded.manifest (reads.files i) source

/-- The sources with their files. -/
def loadedSources (loaded : LoadedCandidate) (reads : Reads) (sources : List LoadedSource) :
    List LoadedSource :=
  sources.mapIdx fun i source => withFiles loaded.manifest (reads.files i) source

/-- **The sources of a candidate**, after the two queries. -/
theorem candidateSources_eq {reads : Reads} {sources : List LoadedSource}
    (hselected : selected loaded reads = .ok sources) :
    (FitsBudget loaded sources → ReadsFit loaded reads sources →
        candidateSources loaded reads = .ok (.loaded (loadedSources loaded reads sources)))
      ∧ (¬ (FitsBudget loaded sources ∧ ReadsFit loaded reads sources) →
        candidateSources loaded reads = .ok .budgetExceeded) := by
  have hadmitted := @admitSource_isSome_iff loaded sources
  have hload : ∀ sources', loadAll loaded.manifest reads.files 0 sources = some sources'
      ↔ ReadsFit loaded reads sources ∧ sources' = loadedSources loaded reads sources := by
    intro sources'
    unfold ReadsFit loadedSources
    simpa only [Nat.zero_add] using @loadAll_eq loaded.manifest reads.files 0 sources sources'
  unfold candidateSources
  rw [hselected]
  simp only [bind, Except.bind]
  cases hfold : sources.foldlM (admitSource loaded) (candidateFileCount loaded.manifest) with
  | none =>
    rw [hfold] at hadmitted
    have hover : ¬ FitsBudget loaded sources := fun h => by simpa using hadmitted.mpr h
    exact ⟨fun h => absurd h hover, fun _ => rfl⟩
  | some admitted =>
    rw [hfold] at hadmitted
    have hfits : FitsBudget loaded sources := hadmitted.mp rfl
    simp only
    cases hall : loadAll loaded.manifest reads.files 0 sources with
    | none =>
      have hnot : ¬ ReadsFit loaded reads sources := fun h => by
        rw [(hload _).mpr ⟨h, rfl⟩] at hall
        cases hall
      exact ⟨fun _ h => absurd h hnot, fun _ => rfl⟩
    | some sources' =>
      obtain ⟨hreads, rfl⟩ := (hload sources').mp hall
      exact ⟨fun _ _ => rfl, fun h => absurd ⟨hfits, hreads⟩ h⟩

/-! ### Candidates that are present -/

theorem sharesHash_matchRequest {sources : List LoadedSource} :
    sharesHash (matchRequest loaded sources) = true
      ↔ ∃ source ∈ sources, source.complete = true
        ∧ sameIdentity loaded.manifest source.manifest = true := by
  unfold sharesHash matchRequest
  simp only [List.any_map, List.any_eq_true, List.mem_filter, Function.comp]
  constructor
  · rintro ⟨source, ⟨hmem, husable⟩, hsame⟩
    exact ⟨source, hmem, (Bool.and_eq_true_iff.mp husable).1, hsame⟩
  · rintro ⟨source, hmem, hcomplete, hsame⟩
    exact ⟨source, ⟨hmem, by rw [usable, hcomplete, hsame]; simp⟩, hsame⟩

theorem sharesHash_loadedSources {reads : Reads} {sources : List LoadedSource} :
    sharesHash (matchRequest loaded (loadedSources loaded reads sources)) = true
      ↔ ∃ source ∈ sources, source.complete = true
        ∧ sameIdentity loaded.manifest source.manifest = true := by
  rw [sharesHash_matchRequest]
  constructor
  · rintro ⟨source', hmem, hcomplete, hsame⟩
    obtain ⟨i, hi, rfl⟩ := List.mem_mapIdx.mp hmem
    rw [withFiles_complete.1] at hcomplete
    rw [usable_withFiles.2] at hsame
    exact ⟨_, List.getElem_mem hi, hcomplete, hsame⟩
  · rintro ⟨source, hmem, hcomplete, hsame⟩
    obtain ⟨i, hi, rfl⟩ := List.mem_iff_getElem.mp hmem
    refine ⟨_, List.mem_mapIdx.mpr ⟨i, hi, rfl⟩, ?_, ?_⟩
    · rw [withFiles_complete.1]
      exact hcomplete
    · rw [usable_withFiles.2]
      exact hsame

theorem decideSources_alreadyPresent {U : Unicode} {sources : List LoadedSource} (now : ℤ)
    {decision : MatchDecision} (hvalid : validateManifest U loaded.manifest = none) :
    decideSources U loaded sources now = .ok (.terminal decision)
      ∧ decision.outcome = .alreadyPresent
      ↔ sharesHash (matchRequest loaded sources) = true
        ∧ decision = absence (matchRequest loaded sources) .alreadyPresent .alreadyPresent
          (baseEvidence (matchRequest loaded sources)) := by
  have hpresent : (evaluate U (matchRequest loaded sources)).outcome = .alreadyPresent
      ↔ sharesHash (matchRequest loaded sources) = true := outcome_alreadyPresent_iff hvalid
  unfold decideSources
  dsimp only
  split
  · rename_i hwaiting
    refine iff_of_false ?_ fun h => by
      rw [hpresent.mpr h.1] at hwaiting
      cases hwaiting.1
    rintro ⟨hdecision, houtcome⟩
    obtain ⟨deadline, -, hdecision⟩ := bind_eq_ok.mp hdecision
    split at hdecision
    · cases hdecision
    · obtain rfl : rejectedSourceTimeout _ = decision :=
        Verdict.terminal.inj (Except.ok.inj hdecision)
      cases houtcome
  · constructor
    · rintro ⟨hdecision, houtcome⟩
      obtain rfl := Verdict.terminal.inj (Except.ok.inj hdecision)
      exact ⟨hpresent.mp houtcome, evaluate_of_sharesHash hvalid (hpresent.mp houtcome)⟩
    · rintro ⟨hhash, rfl⟩
      rw [evaluate_of_sharesHash hvalid hhash]
      exact ⟨rfl, rfl⟩

/-- The bytes that are missing of a candidate that is present: those of its required files. -/
def missingBytes (loaded : LoadedCandidate) : ℕ :=
  sumU64 ((loaded.manifest.files.filter (required loaded.policy.matching)).map TorrentFile.size)

/-- **What the evaluation decides** about a candidate that shares its info hash with a selected
source. -/
theorem decideCandidate_alreadyPresent {U : Unicode} {reads : Reads} (now : ℤ)
    {sources : List LoadedSource} (hvalid : validateManifest U loaded.manifest = none)
    (hselected : selected loaded reads = .ok sources) :
    (∃ decision, decideCandidate U loaded reads now = .ok (.terminal decision) ∧ Storable decision
        ∧ decision.outcome = .alreadyPresent ∧ decision.reason = .alreadyPresent)
      ↔ (∃ source ∈ sources, source.complete = true
        ∧ sameIdentity loaded.manifest source.manifest = true)
        ∧ FitsBudget loaded sources ∧ ReadsFit loaded reads sources
        ∧ missingBytes loaded ≤ i64Max := by
  obtain ⟨hfits, hover⟩ := candidateSources_eq hselected
  unfold decideCandidate
  by_cases hbudget : FitsBudget loaded sources ∧ ReadsFit loaded reads sources
  · rw [hfits hbudget.1 hbudget.2, ← @sharesHash_loadedSources loaded reads]
    constructor
    · rintro ⟨decision, hdecision, hstorable, houtcome, -⟩
      obtain ⟨hhash, rfl⟩ := (decideSources_alreadyPresent now hvalid).mp ⟨hdecision, houtcome⟩
      exact ⟨hhash, hbudget.1, hbudget.2, hstorable.missingBytes⟩
    · rintro ⟨hhash, -, -, hmissing⟩
      obtain ⟨hdecision, -⟩ := (decideSources_alreadyPresent now hvalid).mpr ⟨hhash, rfl⟩
      exact ⟨_, hdecision, ⟨Nat.zero_le _, hmissing, fun _ hm => absurd hm List.not_mem_nil,
        fun _ hm => absurd hm List.not_mem_nil⟩, rfl, rfl⟩
  · rw [hover hbudget]
    refine iff_of_false ?_ fun h => hbudget ⟨h.2.1, h.2.2.1⟩
    rintro ⟨decision, hdecision, -, houtcome, -⟩
    obtain rfl : matcherBudgetRejection loaded = decision :=
      Verdict.terminal.inj (Except.ok.inj hdecision)
    cases houtcome

theorem outcomeCode_eq_alreadyPresent {outcome : MatchOutcome}
    (h : outcomeCode outcome = "already_present") : outcome = .alreadyPresent := by
  cases outcome <;> first | rfl | exact absurd h (by decide)

theorem reasonCode_eq_alreadyPresent {reason : MatchReason}
    (h : reasonCode reason = "already_present") : reason = .alreadyPresent := by
  cases reason <;> first | rfl | exact absurd h (by decide)

end

/-! ### A film that is present -/

/-- The release of a film. -/
def filmRelease : ReleaseDescriptor :=
  Sporos.Matcher.Release.parseRelease Unicode.ascii "Film.2020".toList

/-- A torrent of a film, with the info hash that is given. -/
def filmTorrent (id : Id) (v1Hash : Option Bytes) (isComplete : Bool) : TorrentRow where
  id
  qbitId := ""
  v1Hash
  v2Hash := none
  name := "Film.2020"
  totalSize := 10
  amountLeft := 0
  progressPpm := 1000000
  state := "uploading"
  savePath := "/downloads"
  contentPath := "/downloads/Film.2020"
  category := ""
  tags := []
  isComplete
  available := true
  fileManifestVersion := 1
  fileManifestState := .loaded
  fileManifestLoadedAt := some 0
  contentFingerprint := 0
  addedAt := none
  completedAt := none
  release := filmRelease
  lastSeenGeneration := 1
  updatedAt := 0

/-- A file of the film. -/
def filmRow (sourceId : Id) (ordinal : ℕ) : SourceFileRow where
  id := 10 * sourceId.toNat + ordinal
  sourceId
  manifestVersion := 1
  relativePath := []
  displayPath := "Film.2020.mkv"
  size := 10
  fileKind := "unknown"
  episodeKey := none
  localPath := none
  device := none
  inode := none
  modifiedAt := none
  available := true
  ordinal

/-- A film with an info hash, and a limit of two files. -/
def filmCandidate : LoadedCandidate where
  id := 1
  manifest :=
    { hashes := ⟨some 7, none⟩
      files := [⟨0, "Film.2020.mkv".toList, 10, false⟩]
      pieceLength := some 16384
      pieceFiles := [] }
  release := filmRelease
  policy :=
    { matching :=
        { MatchingPolicy.default with maxAssignmentFiles := 2, maxAssignmentComponentFiles := 2 }
      sourceFilters := Filters.SourceFilters.default
      pendingSourceTimeoutMs := 1000
      dryRun := false }
  createdAt := 0

/-- The bytes of the info hash of the film. -/
def filmHash : Bytes := List.replicate 19 0 ++ [7]

/-- The facts of two torrents of the film. -/
def filmFacts : Facts :=
  replace (replace Facts.empty 1 "qbittorrent" filmRelease) 2 "qbittorrent" filmRelease

/-- The torrents of two films, and the files of the second. -/
def filmStore (torrents : List TorrentRow) : Store :=
  { Store.empty with torrents, files := [filmRow 2 0, filmRow 2 1] }

/-- A torrent of the film as the query of the torrents lists it. -/
def filmSource (id : Id) (v1 : Option (BitVec 160)) (complete : Bool) (fileCount : ℕ) :
    LoadedSource where
  complete
  manifestLoaded := true
  manifestVersion := 1
  fileCount
  manifest := ⟨id, .qbittorrentTorrent, filmRelease, ⟨v1, none⟩, [], true⟩

/-- A codec that is enough for one decision. -/
def filmCodec : EvaluationCodec := ⟨Unicode.ascii, fun _ => 0, fun _ => "", fun _ _ _ => ""⟩

/-- The evaluation of a film against some torrents. -/
def filmCall (loaded : LoadedCandidate) (torrents : List TorrentRow) : Call where
  input := ⟨loaded.id, 2, 3⟩
  loaded
  reads := Reads.same (filmStore torrents) filmFacts
  now := 0
  isLoaded := rfl

/-- The film when its file has `2 ^ 63` bytes. -/
def largeFilm : LoadedCandidate :=
  { filmCandidate with manifest :=
      { filmCandidate.manifest with files := [⟨0, "Film.2020.mkv".toList, 2 ^ 63, false⟩] } }

section

variable {loaded : LoadedCandidate}

theorem torrentSource_eq_ok {store : Store} {row : TorrentRow} {source : LoadedSource}
    (h : torrentSource store row = .ok source) :
    source.manifest.available = true
      ∧ source.fileCount =
        (versionFiles store.files source.manifest.id source.manifestVersion).length := by
  obtain ⟨v1, -, h⟩ := bind_eq_ok.mp h
  obtain ⟨v2, -, h⟩ := bind_eq_ok.mp h
  obtain rfl := Except.ok.inj h
  exact ⟨rfl, rfl⟩

/-- What the queries say about a source that they select. -/
theorem selected_eq_ok {store : Store} {facts : Facts} {sources : List LoadedSource}
    (h : selected loaded (Reads.same store facts) = .ok sources) {source : LoadedSource}
    (hsource : source ∈ sources) :
    source.manifest.available = true
      ∧ source.fileCount =
        (versionFiles store.files source.manifest.id source.manifestVersion).length := by
  obtain ⟨torrents, htorrents, h⟩ := bind_eq_ok.mp h
  obtain rfl := Except.ok.inj h
  rcases List.mem_append.mp hsource with hmem | hmem
  · obtain ⟨row, -, hrow⟩ := mem_of_mapM htorrents source hmem
    exact torrentSource_eq_ok hrow
  · obtain ⟨row, -, rfl⟩ := List.mem_map.mp hmem
    exact ⟨rfl, rfl⟩

/-- The request of all the sources, with all their files. -/
def fullRequest (loaded : LoadedCandidate) (store : Store) (sources : List LoadedSource) :
    MatchRequest where
  candidate := loaded.manifest
  candidateRelease := loaded.release
  sources := sources.map fun source =>
    { source.manifest with files := allFiles store.files source.manifest.id source.manifestVersion }
  policy := loaded.policy.matching

/-- A source that is complete and loaded, and is not the candidate itself. -/
def Plain (candidate : TorrentManifest) (source : LoadedSource) : Prop :=
  source.complete = true ∧ source.manifestLoaded = true
    ∧ sameIdentity candidate source.manifest = false

theorem Plain.needsFiles {candidate : TorrentManifest} {source : LoadedSource}
    (h : Plain candidate source) :
    needsFiles candidate source = true ∧ usable candidate source = true := by
  obtain ⟨hcomplete, hloaded, hsame⟩ := h
  simp [Selection.needsFiles, usable, hcomplete, hloaded, hsame]

theorem matchRequest_eq {store : Store} {facts : Facts} {sources : List LoadedSource}
    (hplain : ∀ source ∈ sources, Plain loaded.manifest source) :
    matchRequest loaded (loadedSources loaded (Reads.same store facts) sources) =
      fullRequest loaded store sources
      ∧ waitingIds loaded (loadedSources loaded (Reads.same store facts) sources) = [] := by
  have hmap : loadedSources loaded (Reads.same store facts) sources
      = sources.map (withFiles loaded.manifest store) := by
    rw [loadedSources, List.mapIdx_eq_iff]
    intro i
    rw [List.getElem?_map]
    rfl
  have husable : ∀ source ∈ sources,
      usable loaded.manifest (withFiles loaded.manifest store source) = true := by
    intro source hsource
    rw [usable_withFiles.1]
    exact (hplain source hsource).needsFiles.2
  constructor
  · unfold matchRequest fullRequest
    congr 1
    have hfilter : (sources.map (withFiles loaded.manifest store)).filter (usable loaded.manifest)
        = sources.map (withFiles loaded.manifest store) := by
      refine List.filter_eq_self.mpr fun source' hsource' => ?_
      obtain ⟨source, hsource, rfl⟩ := List.mem_map.mp hsource'
      exact husable source hsource
    rw [hmap, hfilter, List.map_map]
    refine List.map_congr_left fun source hsource => ?_
    simp only [Function.comp, withFiles]
    rw [if_pos (hplain source hsource).needsFiles.1]
  · unfold waitingIds
    rw [hmap, List.filter_eq_nil_iff.mpr]
    · rfl
    · intro source' hsource'
      obtain ⟨source, hsource, rfl⟩ := List.mem_map.mp hsource'
      rw [husable source hsource]
      decide

/-- The input budget of the matcher, for all the sources. -/
theorem inputBudgetExceeded_fullRequest {store : Store} {facts : Facts}
    {sources : List LoadedSource}
    (hselected : selected loaded (Reads.same store facts) = .ok sources) :
    inputBudgetExceeded (fullRequest loaded store sources) = true
      ↔ loaded.policy.matching.maxAssignmentFiles
        < candidateFileCount loaded.manifest + (sources.map LoadedSource.fileCount).sum := by
  have havailable : (fullRequest loaded store sources).sources.filter LocalSourceManifest.available
      = (fullRequest loaded store sources).sources := by
    refine List.filter_eq_self.mpr fun source' hsource' => ?_
    obtain ⟨source, hsource, rfl⟩ := List.mem_map.mp hsource'
    exact (selected_eq_ok hselected hsource).1
  have hcounts : (fullRequest loaded store sources).sources.map (fun source => source.files.length)
      = sources.map LoadedSource.fileCount := by
    rw [fullRequest, List.map_map]
    refine List.map_congr_left fun source hsource => ?_
    rw [(selected_eq_ok hselected hsource).2]
    simp [allFiles]
  rw [inputBudgetExceeded_iff, havailable, hcounts]
  rfl

theorem sharesHash_fullRequest {store : Store} {sources : List LoadedSource}
    (hplain : ∀ source ∈ sources, Plain loaded.manifest source) :
    sharesHash (fullRequest loaded store sources) = false := by
  unfold sharesHash fullRequest
  rw [List.any_map, List.any_eq_false]
  intro source hsource
  have hsame := (hplain source hsource).2.2
  simpa [sameIdentity] using hsame

/-- What is decided where no other write comes between the queries: the decision of the matcher, or
the rejection of the admission, which has the same outcome and reason. -/
theorem decideCandidate_fullRequest {U : Unicode} {store : Store} {facts : Facts}
    {sources : List LoadedSource} (now : ℤ) (hvalid : validateManifest U loaded.manifest = none)
    (hselected : selected loaded (Reads.same store facts) = .ok sources)
    (hplain : ∀ source ∈ sources, Plain loaded.manifest source) :
    (∃ decision, decideCandidate U loaded (Reads.same store facts) now = .ok (.terminal decision)
        ∧ decision.outcome = (evaluate U (fullRequest loaded store sources)).outcome
        ∧ decision.reason = (evaluate U (fullRequest loaded store sources)).reason
        ∧ (decision = evaluate U (fullRequest loaded store sources)
          ∨ decision = matcherBudgetRejection loaded))
      ∧ (sources ≠ [] →
        (candidateSources loaded (Reads.same store facts) = .ok .budgetExceeded
          ↔ inputBudgetExceeded (fullRequest loaded store sources) = true)) := by
  obtain ⟨hfits, hover⟩ := candidateSources_eq hselected
  have hneeding : needing loaded.manifest sources = sources :=
    List.filter_eq_self.mpr fun source hsource => (hplain source hsource).needsFiles.1
  have hreads : ReadsFit loaded (Reads.same store facts) sources := fun i source hsource _ =>
    (selected_eq_ok hselected (List.mem_of_getElem? hsource)).2.ge
  have hbudget := inputBudgetExceeded_fullRequest hselected
  unfold decideCandidate
  by_cases hbudgetFits : FitsBudget loaded sources
  · have hloaded := hfits hbudgetFits hreads
    obtain ⟨hrequest, hwaiting⟩ := @matchRequest_eq loaded store facts sources hplain
    rw [hloaded]
    refine ⟨⟨_, ?_, rfl, rfl, .inl rfl⟩, fun hsources => ?_⟩
    · simp only [bind, Except.bind, decideSources, hwaiting, hrequest]
      simp
    · rw [hbudget]
      have hle := hbudgetFits.resolve_left (by rwa [hneeding])
      rw [hneeding] at hle
      exact iff_of_false (by simp) (not_lt.mpr hle)
  · have hexceeded := hover fun h => hbudgetFits h.1
    have hlt : loaded.policy.matching.maxAssignmentFiles
        < candidateFileCount loaded.manifest + (sources.map LoadedSource.fileCount).sum := by
      unfold FitsBudget at hbudgetFits
      rw [hneeding] at hbudgetFits
      exact not_le.mp fun hle => hbudgetFits (.inr hle)
    have hrejected : evaluate U (fullRequest loaded store sources)
        = rejection .matcherBudgetExceeded (baseEvidence (fullRequest loaded store sources)) := by
      unfold evaluate
      dsimp only
      rw [show validateManifest U (fullRequest loaded store sources).candidate = none from hvalid]
      simp only
      rw [sharesHash_fullRequest hplain, hbudget.mpr hlt]
      rfl
    rw [hexceeded, hrejected]
    exact ⟨⟨_, rfl, rfl, rfl, .inr rfl⟩, fun _ => iff_of_true rfl (hbudget.mpr hlt)⟩

theorem storable_matcherBudgetRejection
    (hbytes : (loaded.manifest.files.map TorrentFile.size).sum ≤ i64Max) :
    Storable (matcherBudgetRejection loaded) where
  mappedBytes := Nat.zero_le _
  missingBytes := (Nat.mod_le _ _).trans
    (((List.filter_sublist.map _).sum_le_sum fun _ _ => Nat.zero_le _).trans hbytes)
  sourceFileIds := fun _ hm => absurd hm List.not_mem_nil
  sizes := fun _ hm => absurd hm List.not_mem_nil

theorem ids_fullRequest {store : Store} {sources : List LoadedSource}
    (hids : ∀ row ∈ store.files, row.id ≤ i64Max) :
    ∀ source ∈ (fullRequest loaded store sources).sources, ∀ file ∈ source.files,
      file.id ≤ i64Max := by
  intro source hsource file hfile
  obtain ⟨source', -, rfl⟩ := List.mem_map.mp hsource
  obtain ⟨row, hrow, rfl⟩ := List.mem_map.mp hfile
  exact hids row (List.mem_of_mem_filter ((List.mem_insertionSort _).mp hrow))

/-- **The evaluation is that of the matcher.** Where every source that is selected is complete and
loaded, none is the candidate itself, and nobody else writes, the outcome and the reason that an
evaluation stores and returns are those of the matcher on all the sources with all their files. It
stores them unless a number is no integer of a column, which cannot happen if the bytes of the
candidate and the ids of the files are; then it fails with a range error. If there is a source at
all, the admission of the files rejects the candidate exactly when the input budget of the matcher
does. -/
theorem evaluation_refines (codec : EvaluationCodec) (candidates : List CandidateStateRow)
    (earlier : List Call) (call : Call) (store : Store) (facts : Facts)
    (sources : List LoadedSource)
    (hlawful : Lawful codec ((earlier ++ [call]).flatMap (Call.decided codec)))
    (hreads : call.reads = Reads.same store facts)
    (hvalid : validateManifest codec.unicode call.loaded.manifest = none)
    (hselected : selected call.loaded (Reads.same store facts) = .ok sources)
    (hplain : ∀ source ∈ sources, Plain call.loaded.manifest source) :
    let decision := evaluate codec.unicode (fullRequest call.loaded store sources)
    let ends := EndsWith codec (tablesAfter codec candidates earlier) call
      (terminalState decision call.loaded.policy.dryRun) (outcomeCode decision.outcome)
        (reasonCode decision.reason)
    (ends ∨ ∃ field, call.evaluate codec (tablesAfter codec candidates earlier) =
      .error (.range field))
      ∧ ((call.loaded.manifest.files.map TorrentFile.size).sum ≤ i64Max →
        (∀ row ∈ store.files, row.id ≤ i64Max) →
        ends)
      ∧ (sources ≠ [] →
        (candidateSources call.loaded (Reads.same store facts) = .ok .budgetExceeded
          ↔ inputBudgetExceeded (fullRequest call.loaded store sources) = true)) := by
  intro decision ends
  obtain ⟨⟨decided, hdecided, houtcome, hreason, hwhich⟩, hadmission⟩ :=
    decideCandidate_fullRequest call.now hvalid hselected hplain
  rw [← hreads] at hdecided
  have hstate : terminalState decided call.loaded.policy.dryRun =
      terminalState decision call.loaded.policy.dryRun := by
    unfold terminalState
    rw [houtcome]
  refine ⟨?_, fun hbytes hids => ?_, hadmission⟩
  · have hends := endsWith_or_range_after candidates hlawful hdecided
    rwa [hstate, houtcome, hreason] at hends
  · have hstorable : Storable decided := by
      rcases hwhich with rfl | rfl
      · exact storable_evaluate hbytes (ids_fullRequest hids)
      · exact storable_matcherBudgetRejection hbytes
    exact (endsWith_after candidates hlawful).mpr
      ⟨decided, hdecided, hstorable, hstate, congrArg outcomeCode houtcome,
        congrArg reasonCode hreason⟩

end

/-- Without a source the admission rejects nothing, and the input budget of the matcher may. -/
theorem admission_without_sources :
    ¬ ∀ (codec : EvaluationCodec) (loaded : LoadedCandidate) (store : Store) (facts : Facts)
      (sources : List LoadedSource), validateManifest codec.unicode loaded.manifest = none →
      selected loaded (Reads.same store facts) = .ok sources →
      (∀ source ∈ sources, Plain loaded.manifest source) →
      (candidateSources loaded (Reads.same store facts) = .ok .budgetExceeded
        ↔ inputBudgetExceeded (fullRequest loaded store sources) = true) := by
  intro h
  let loaded : LoadedCandidate := { filmCandidate with manifest :=
    { filmCandidate.manifest with files := [⟨0, ['a'], 1, false⟩, ⟨1, ['b'], 1, false⟩,
      ⟨2, ['c'], 1, false⟩] } }
  have hiff := h filmCodec loaded Store.empty Facts.empty []
    (by decide +kernel) (by decide +kernel) (by simp)
  have hexceeded : inputBudgetExceeded (fullRequest loaded Store.empty []) =
    true := by decide +kernel
  have hloaded : candidateSources loaded (Reads.same Store.empty Facts.empty) =
      .ok (.loaded []) := by
    decide +kernel
  rw [hloaded] at hiff
  exact absurd (hiff.mpr hexceeded) (by decide)

/-- Another torrent of the film, with two files: its own exceed the limit with that of the
candidate. -/
theorem evaluation_refines_film :
    (EndsWith filmCodec (tablesAfter filmCodec [] [])
      (filmCall filmCandidate [filmTorrent 2 none true]) "rejected"
        "rejected" "matcher_budget_exceeded")
      ∧ candidateSources filmCandidate (Reads.same (filmStore [filmTorrent 2 none true]) filmFacts)
        = .ok .budgetExceeded := by
  obtain ⟨-, hends, hadmission⟩ := evaluation_refines filmCodec [] []
    (filmCall filmCandidate [filmTorrent 2 none true])
      (filmStore [filmTorrent 2 none true]) filmFacts
    [filmSource 2 none true 2] (lawful_singleton _ _) rfl (by decide +kernel) (by decide +kernel)
    (by simp only [List.mem_singleton, forall_eq]; exact ⟨rfl, rfl, by decide +kernel⟩)
  have hrejected : evaluate filmCodec.unicode
    (fullRequest (filmCall filmCandidate [filmTorrent 2 none true]).loaded
      (filmStore [filmTorrent 2 none true]) [filmSource 2 none true 2])
        = rejection .matcherBudgetExceeded (baseEvidence (fullRequest filmCandidate
          (filmStore [filmTorrent 2 none true]) [filmSource 2 none true 2])) := by decide +kernel
  have hstored := hends (by decide +kernel) (by decide +kernel)
  rw [hrejected] at hstored
  exact ⟨hstored, (hadmission (by simp)).mpr (by decide +kernel)⟩

end Sporos.Service.Decisions

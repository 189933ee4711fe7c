import Sporos.Matcher.Invariance

/-! # What a match says

Where the decision of a match comes from, and what it promises: mappings of existing files of one
size, each file at most once, the conditions of the mode, and the byte counts. -/

namespace Sporos.Matcher.Soundness

open Sporos.Model.Matching
open Sporos.Matcher.Release
open Sporos.Matcher.Files
open Sporos.Matcher.Assign
open Sporos.Matcher.Heaviest
open Sporos.Matcher.Evaluate
open Sporos.Matcher.Invariance
open Sporos.Lib.Lists

variable {U : Unicode} {request : MatchRequest}

/-! ### The decisions that are collected -/

theorem choose_mem {choices : List MatchDecision} {d : MatchDecision} (h : choose choices = some d)
    (hd : d.outcome = .matched) : d ∈ choices := by
  unfold choose at h
  have hmem : ∀ d, d ∈ choices.insertionSort Better → d ∈ choices :=
    fun d => (List.mem_insertionSort Better).mp
  split at h
  · cases h
  · next heq => exact hmem d (by rw [heq, Option.some.inj h]; simp)
  · next heq =>
    split_ifs at h
    · rw [← Option.some.inj h] at hd
      cases hd
    · exact hmem d (by rw [heq, Option.some.inj h]; simp)

theorem Collected.mem_add {acc acc' : Collected} {e : SourceEvaluation} (h : acc.add e = some acc')
    (d : MatchDecision) : d ∈ acc'.choices ↔ d ∈ acc.choices ∨ e = .decision d := by
  cases e with
  | decision d' =>
    rw [← Option.some.inj h]
    simp [eq_comm]
  | ambiguous => cases h
  | noMatch reason =>
    rw [← Option.some.inj h]
    simp

theorem Collected.add_ne_none {acc : Collected} {e : SourceEvaluation} :
    acc.add e = none ↔ e = .ambiguous := by
  cases e <;> simp [Collected.add]

/-- The choices are the decisions about the sources. -/
theorem mem_collectSources : ∀ (sources : List LocalSourceManifest) (acc acc' : Collected),
    sources.foldlM (collectSource U request) acc = some acc' → ∀ d, d ∈ acc'.choices ↔
      d ∈ acc.choices ∨ ∃ source ∈ sources, evaluateRelease U request source = .decision d
  | [], acc, acc', h, d => by
    obtain rfl : acc = acc' := Option.some.inj h
    simp
  | source :: sources, acc, acc', h, d => by
    rw [List.foldlM_cons] at h
    obtain ⟨mid, hmid, h⟩ := Option.bind_eq_some_iff.mp h
    rw [mem_collectSources sources mid acc' h d, Collected.mem_add hmid d, or_assoc]
    simp

theorem collectSources_eq_none : ∀ (sources : List LocalSourceManifest) (acc : Collected),
    sources.foldlM (collectSource U request) acc = none ↔
      ∃ source ∈ sources, evaluateRelease U request source = .ambiguous
  | [], acc => by simp
  | source :: sources, acc => by
    rw [List.foldlM_cons]
    cases hmid : collectSource U request acc source with
    | none => simpa using .inl (Collected.add_ne_none.mp hmid)
    | some mid =>
      have hne : evaluateRelease U request source ≠ .ambiguous := fun he => by
        rw [collectSource, Collected.add_ne_none.mpr he] at hmid
        cases hmid
      simpa [hne] using collectSources_eq_none sources mid

/-- The choices of a request. -/
theorem mem_collect {acc : Collected} (h : collect U request = some acc) (d : MatchDecision) :
    d ∈ acc.choices ↔
      (∃ source ∈ availableSources request, evaluateRelease U request source = .decision d) ∨
      (seasonConsidered request = true ∧
        evaluateSeason U request (availableSources request) = .decision d) := by
  obtain ⟨mid, hmid, h⟩ := Option.bind_eq_some_iff.mp h
  have hsources := mem_collectSources _ _ _ hmid d
  simp only [List.not_mem_nil, false_or] at hsources
  unfold collectSeason at h
  by_cases hseason : seasonConsidered request = true
  · rw [if_pos hseason] at h
    rw [Collected.mem_add h, hsources]
    simp [hseason]
  · rw [if_neg hseason] at h
    rw [← Option.some.inj h, hsources]
    simp [hseason]

theorem collect_eq_none : collect U request = none ↔
    (∃ source ∈ availableSources request, evaluateRelease U request source = .ambiguous) ∨
      (seasonConsidered request = true ∧
        evaluateSeason U request (availableSources request) = .ambiguous) := by
  rw [collect]
  cases hmid : (availableSources request).foldlM (collectSource U request) ⟨[], []⟩ with
  | none => simpa using .inl ((collectSources_eq_none _ _).mp hmid)
  | some mid =>
    have hne := (collectSources_eq_none (availableSources request) ⟨[], []⟩).not.mp
      (by rw [hmid]; simp)
    simp only [hne, false_or, Option.bind_some, collectSeason]
    by_cases hseason : seasonConsidered request = true
    · rw [if_pos hseason, Collected.add_ne_none]
      simp [hseason]
    · rw [if_neg hseason]
      simp [hseason]

theorem mem_availableSources {source : LocalSourceManifest} :
    source ∈ availableSources request ↔ source ∈ request.sources ∧ source.available = true := by
  rw [availableSources, List.mem_insertionSort, List.mem_filter]

theorem evaluateRelease_decision {source : LocalSourceManifest} {d : MatchDecision} :
    evaluateRelease U request source = .decision d ↔
      compatible request.candidateRelease source.release false = .ok () ∧
        evaluateSource U request source = .decision d := by
  unfold evaluateRelease
  cases compatible request.candidateRelease source.release false <;> simp

/-- When a request is evaluated against its sources. -/
structure Considered (U : Unicode) (request : MatchRequest) : Prop where
  valid : validateManifest U request.candidate = none
  absent : sharesHash request = false
  budget : inputBudgetExceeded request = false

theorem Considered.accepted (h : Considered U request) : Accepted U request.candidate.files :=
  (validateManifest_eq_none.mp h.valid).2.2

/-- A match is one of the collected decisions. -/
theorem evaluate_matched (h : (evaluate U request).outcome = .matched) :
    Considered U request ∧ ∃ acc, collect U request = some acc ∧
      choose acc.choices = some (evaluate U request) := by
  unfold evaluate at h ⊢
  simp only at h ⊢
  cases hvalid : validateManifest U request.candidate with
  | some reason => rw [hvalid] at h; cases h
  | none =>
    rw [hvalid] at h
    simp only at h ⊢
    split_ifs at h ⊢ with hhash hbudget
    · cases h
    · cases h
    · refine ⟨⟨hvalid, by simpa using hhash, by simpa using hbudget⟩, ?_⟩
      cases hcollect : collect U request with
      | none => rw [hcollect] at h; cases h
      | some acc =>
        rw [hcollect] at h
        simp only at h ⊢
        refine ⟨acc, rfl, ?_⟩
        cases hchoose : choose acc.choices with
        | none => rw [hchoose] at h; cases h
        | some d => rfl

/-- Where a match comes from. -/
theorem evaluate_matched_source (h : (evaluate U request).outcome = .matched) :
    (∃ source ∈ request.sources, source.available = true ∧
      compatible request.candidateRelease source.release false = .ok () ∧
      evaluateSource U request source = .decision (evaluate U request)) ∨
    (seasonConsidered request = true ∧
      evaluateSeason U request (availableSources request) = .decision (evaluate U request)) := by
  obtain ⟨-, acc, hacc, hchoose⟩ := evaluate_matched h
  rcases (mem_collect hacc _).mp (choose_mem hchoose h) with ⟨source, hmem, he⟩ | hseason
  · obtain ⟨hsource, havailable⟩ := mem_availableSources.mp hmem
    obtain ⟨hcompatible, he⟩ := evaluateRelease_decision.mp he
    exact .inl ⟨source, hsource, havailable, hcompatible, he⟩
  · exact .inr hseason

theorem evaluateSource_decision {source : LocalSourceManifest} {d : MatchDecision}
    (h : evaluateSource U request source = .decision d) :
    ∃ pairs mode, assign U request.policy (candidateFiles request.candidate) (sourceFiles source) =
        .ok ⟨pairs, false⟩ ∧
      sourceMode request.policy (candidateFiles request.candidate)
        (buildMappings (candidateFiles request.candidate) (sourceFiles source) ⟨pairs, false⟩) =
          some mode ∧
      d = decision request mode
        (buildMappings (candidateFiles request.candidate) (sourceFiles source) ⟨pairs,
          false⟩) 1 := by
  unfold evaluateSource at h
  simp only at h
  cases ha : assign U request.policy (candidateFiles request.candidate) (sourceFiles source) with
  | error e => rw [ha] at h; cases h
  | ok a =>
    obtain ⟨pairs, ambiguous⟩ := a
    rw [ha] at h
    simp only at h
    cases ambiguous with
    | true => cases h
    | false =>
      simp only [Bool.false_eq_true, if_false] at h
      split at h
      · cases h
      · next mode hmode => exact ⟨pairs, mode, rfl, hmode, (SourceEvaluation.decision.inj h).symm⟩

theorem evaluateSeason_decision {sources : List LocalSourceManifest} {d : MatchDecision}
    (h : evaluateSeason U request sources = .decision d) :
    ∃ pairs, assignSeason U request.policy (candidateFiles request.candidate)
        (episodeSources request sources) = .ok ⟨pairs, false⟩ ∧
      (buildMappings (candidateFiles request.candidate) (episodeSources request sources)
        ⟨pairs, false⟩).any (mappedFile (candidateFiles request.candidate)
          (primary request.policy)) = true ∧
      ∃ n, d = decision request .seasonFromEpisodes
        (buildMappings (candidateFiles request.candidate) (episodeSources request sources)
          ⟨pairs, false⟩) n := by
  unfold evaluateSeason at h
  simp only at h
  split_ifs at h
  cases ha : assignSeason U request.policy (candidateFiles request.candidate)
      (episodeSources request sources) with
  | error e => rw [ha] at h; cases h
  | ok a =>
    obtain ⟨pairs, ambiguous⟩ := a
    rw [ha] at h
    simp only at h
    cases ambiguous with
    | true => cases h
    | false =>
      simp only [Bool.false_eq_true, if_false] at h
      split_ifs at h with hany
      exact ⟨pairs, rfl, by simpa using hany, _, (SourceEvaluation.decision.inj h).symm⟩

/-! ### The mappings of an assignment -/

theorem mem_candidateFiles {file : TorrentFile} : file ∈ candidateFiles request.candidate ↔
    file ∈ request.candidate.files ∧ file.padding = false := by
  rw [candidateFiles, List.mem_insertionSort, List.mem_filter]
  simp

section

variable {policy : MatchingPolicy} {candidates : List TorrentFile} {sources : List SourceFile}
variable {seasonMode : Bool} {pairs : List (ℕ × ℕ × ℕ)}

/-- A mapping pairs a candidate and a source that have a score. -/
theorem mapping_score
    (h : assignWith policy candidates sources (edgeScore U policy seasonMode) = .ok ⟨pairs, false⟩)
    {m : FileMapping} (hm : m ∈ buildMappings candidates sources ⟨pairs, false⟩) :
    ∃ file source, file ∈ candidates ∧ source ∈ sources ∧ m.candidateOrdinal = file.ordinal ∧
      m.candidatePath = file.path ∧ m.size = file.size ∧ m.sourceId = source.1 ∧
      m.sourceFileId = source.2.id ∧ m.sourcePath = source.2.path ∧
      edgeScore U policy seasonMode file source.2 = some m.score := by
  obtain ⟨pair, hpair, hm⟩ := mem_buildMappings.mp hm
  obtain ⟨file, source, hfile, hsource, rfl⟩ := buildMapping_eq_some.mp hm
  have hraw := (assignWith_ok (edgeScore_pos U policy seasonMode) h).2.2 pair hpair
  rw [rawAt_allEdges, hfile, Option.bind_some] at hraw
  split_ifs at hraw
  rw [scoreAt, hsource, Option.bind_some] at hraw
  exact ⟨file, source, List.mem_of_getElem? hfile, List.mem_of_getElem? hsource, rfl, rfl, rfl, rfl,
    rfl, rfl, hraw⟩

/-- A key that tells the pairs apart occurs once. -/
theorem nodup_map_mappings {κ : Type} {key : FileMapping → κ} (hnodup : pairs.Nodup)
    (hkey : ∀ p ∈ pairs, ∀ q ∈ pairs, ∀ m m', buildMapping candidates sources p = some m →
      buildMapping candidates sources q = some m' → key m = key m' → p = q) :
    ((buildMappings candidates sources ⟨pairs, false⟩).map key).Nodup := by
  have hperm : ((buildMappings candidates sources ⟨pairs, false⟩).map key).Perm
      ((pairs.filterMap (buildMapping candidates sources)).map key) :=
    (List.perm_insertionSort _ _).map _
  rw [hperm.nodup_iff, List.Nodup, List.pairwise_map, List.pairwise_filterMap]
  refine hnodup.pairwise_of_forall_ne fun p hp q hq hne m hm m' hm' heq => hne ?_
  exact hkey p hp q hq m m' hm hm' heq

theorem nodup_ordinals (hord : (candidates.map TorrentFile.ordinal).Nodup)
    (h : assignWith policy candidates sources (edgeScore U policy seasonMode) =
      .ok ⟨pairs, false⟩) :
    ((buildMappings candidates sources ⟨pairs, false⟩).map FileMapping.candidateOrdinal).Nodup := by
  have hpos := edgeScore_pos U policy seasonMode
  refine nodup_map_mappings (assignWith_ok hpos h).2.1.of_map fun p hp q hq m m' hm hm' heq => ?_
  obtain ⟨c, s, hc, -, rfl⟩ := buildMapping_eq_some.mp hm
  obtain ⟨c', s', hc', -, rfl⟩ := buildMapping_eq_some.mp hm'
  have hcc : c = c' :=
    List.inj_on_of_nodup_map hord (List.mem_of_getElem? hc) (List.mem_of_getElem? hc') heq
  refine pairs_row_inj hpos h hp hq ?_
  rw [← hcc] at hc'
  exact (List.getElem?_inj (List.getElem?_eq_some_iff.mp hc).1 hord.of_map).mp (hc.trans hc'.symm)

theorem nodup_sourceKeys (hkeys : (sources.map fun source => (source.1, source.2.id)).Nodup)
    (h : assignWith policy candidates sources (edgeScore U policy seasonMode) =
      .ok ⟨pairs, false⟩) :
    ((buildMappings candidates sources ⟨pairs, false⟩).map
      fun m => (m.sourceId, m.sourceFileId)).Nodup := by
  have hpos := edgeScore_pos U policy seasonMode
  refine nodup_map_mappings (assignWith_ok hpos h).2.1.of_map fun p hp q hq m m' hm hm' heq => ?_
  obtain ⟨c, s, -, hs, rfl⟩ := buildMapping_eq_some.mp hm
  obtain ⟨c', s', -, hs', rfl⟩ := buildMapping_eq_some.mp hm'
  have hss : s = s' :=
    List.inj_on_of_nodup_map hkeys (List.mem_of_getElem? hs) (List.mem_of_getElem? hs') heq
  refine pairs_column_inj hpos h hp hq ?_
  rw [← hss] at hs'
  exact (List.getElem?_inj (List.getElem?_eq_some_iff.mp hs).1 hkeys.of_map).mp (hs.trans hs'.symm)

end

/-! ### Byte counts -/

/-- Mappings of different files are not larger than the files together. -/
theorem sum_mapped_le : ∀ (mappings : List FileMapping) (files : List TorrentFile),
    (mappings.map FileMapping.candidateOrdinal).Nodup →
    (∀ m ∈ mappings, ∃ file ∈ files, file.ordinal = m.candidateOrdinal ∧ file.size = m.size) →
    (mappings.map FileMapping.size).sum ≤ (files.map TorrentFile.size).sum
  | [], files, _, _ => by simp
  | m :: mappings, files, hnodup, hfiles => by
    obtain ⟨file, hfile, hord, hsize⟩ := hfiles m (by simp)
    rw [List.map_cons, List.nodup_cons] at hnodup
    have hrest := sum_mapped_le mappings (files.erase file) hnodup.2 fun m' hm' => by
      obtain ⟨file', hfile', hord', hsize'⟩ := hfiles m' (List.mem_cons_of_mem _ hm')
      refine ⟨file', (List.mem_erase_of_ne fun he => hnodup.1 ?_).mpr hfile', hord', hsize'⟩
      rw [← hord, ← he, hord']
      exact List.mem_map_of_mem hm'
    have hsum := ((List.perm_cons_erase hfile).map TorrentFile.size).sum_eq
    simp only [List.map_cons, List.sum_cons] at hsum ⊢
    omega

/-- A mapping of a file that satisfies `p`. -/
theorem mappedFile_iff (hacc : (request.candidate.files.map TorrentFile.ordinal).Nodup)
    {p : TorrentFile → Bool} {m : FileMapping} :
    mappedFile request.candidate.files p m = true ↔
      ∃ file ∈ request.candidate.files, file.ordinal = m.candidateOrdinal ∧ p file = true := by
  rw [mappedFile, Option.any_eq_true]
  constructor
  · rintro ⟨file, hfind, hp⟩
    exact ⟨file, List.mem_of_find?_eq_some hfind, by simpa using List.find?_some hfind, hp⟩
  · rintro ⟨file, hmem, hord, hp⟩
    cases hfind : request.candidate.files.find? fun file => file.ordinal = m.candidateOrdinal with
    | none => exact absurd hord (by simpa using List.find?_eq_none.mp hfind file hmem)
    | some file' =>
      have hord' : file'.ordinal = m.candidateOrdinal := by simpa using List.find?_some hfind
      have := List.inj_on_of_nodup_map hacc hmem (List.mem_of_find?_eq_some hfind)
        (hord.trans hord'.symm)
      exact ⟨file', rfl, this ▸ hp⟩

theorem mappedFile_candidateFiles {p : TorrentFile → Bool} {m : FileMapping}
    (hp : mappedFile (candidateFiles request.candidate) p m = true) :
    ∃ file ∈ request.candidate.files, file.ordinal = m.candidateOrdinal ∧ p file = true := by
  rw [mappedFile, Option.any_eq_true] at hp
  obtain ⟨file, hfind, hp⟩ := hp
  exact ⟨file, (mem_candidateFiles.mp (List.mem_of_find?_eq_some hfind)).1,
    by simpa using List.find?_some hfind, hp⟩

/-! ### Soundness -/

/-- The files a mapping stands for. -/
structure MappingOf (request : MatchRequest) (m : FileMapping) (file : TorrentFile)
    (source : LocalSourceManifest) (sourceFile : LocalSourceFile) : Prop where
  file_mem : file ∈ request.candidate.files
  not_padding : file.padding = false
  ordinal : m.candidateOrdinal = file.ordinal
  candidatePath : m.candidatePath = file.path
  source_mem : source ∈ request.sources
  available : source.available = true
  sourceId : m.sourceId = source.id
  sourceFile_mem : sourceFile ∈ source.files
  sourceFileId : m.sourceFileId = sourceFile.id
  sourcePath : m.sourcePath = sourceFile.path
  size : m.size = file.size
  same_size : file.size = sourceFile.size

/-- The file with the ordinal of a mapping satisfies `p`. -/
def Maps (request : MatchRequest) (p : TorrentFile → Bool) (m : FileMapping) : Prop :=
  ∃ file ∈ request.candidate.files, file.ordinal = m.candidateOrdinal ∧ p file = true

/-- Every required file is mapped. -/
def AllRequired (request : MatchRequest) (mappings : List FileMapping) : Prop :=
  ∀ file ∈ request.candidate.files, required request.policy file = true →
    ∃ m ∈ mappings, m.candidateOrdinal = file.ordinal

/-- What each mode promises. -/
def ModeSound (U : Unicode) (request : MatchRequest) (mappings : List FileMapping) :
    MatchMode → Prop
  | .strict => ∀ file ∈ request.candidate.files, required request.policy file = true →
      ∃ m ∈ mappings, m.candidateOrdinal = file.ordinal ∧ m.candidatePath = m.sourcePath
  | .flexible => AllRequired request mappings ∧ request.policy.allowFlexible = true
  | .partialMatch => request.policy.allowPartial = true ∧
      ∃ m ∈ mappings, Maps request (primary request.policy) m
  | .seasonFromEpisodes => (∃ m ∈ mappings, Maps request (primary request.policy) m) ∧
      ∀ m ∈ mappings, Maps request (primary request.policy) m →
        ∃ key ∈ episodeKeys U m.candidatePath, key ∈ episodeKeys U m.sourcePath

/-- Where the mappings of each mode come from. -/
def OriginSound (request : MatchRequest) (mappings : List FileMapping) : MatchMode → Prop
  | .seasonFromEpisodes => ∀ m ∈ mappings, ∃ source ∈ request.sources, source.id = m.sourceId ∧
      source.release.kind = .episode ∧ source.release.season = request.candidateRelease.season
  | _ => ∃ source ∈ request.sources, source.available = true ∧
      compatible request.candidateRelease source.release false = .ok () ∧
      ∀ m ∈ mappings, m.sourceId = source.id

/-- The bytes of the required files. -/
def totalRequired (request : MatchRequest) : ℕ :=
  ((request.candidate.files.filter (required request.policy)).map TorrentFile.size).sum

/-- The bytes of the mappings of required files. -/
def requiredMapped (request : MatchRequest) (mappings : List FileMapping) : ℕ :=
  ((mappings.filter
    (mappedFile request.candidate.files (required request.policy))).map FileMapping.size).sum

/-- The byte counts of a decision are the sums they stand for. -/
structure BytesSound (request : MatchRequest) (d : MatchDecision) : Prop where
  mapped : d.mappedBytes = (d.mappings.map FileMapping.size).sum
  missing : d.missingBytes + requiredMapped request d.mappings = totalRequired request
  ratio : d.presentRatio = if totalRequired request = 0 then 0
    else requiredMapped request d.mappings * 1000000 / totalRequired request

/-- What a match promises. -/
structure Sound (U : Unicode) (request : MatchRequest) (d : MatchDecision) : Prop where
  mapping : ∀ m ∈ d.mappings, ∃ file source sourceFile, MappingOf request m file source sourceFile
  ordinals : (d.mappings.map FileMapping.candidateOrdinal).Nodup
  sourceFiles : (d.mappings.map fun m => (m.sourceId, m.sourceFileId)).Nodup
  mode : ∃ mode, d.mode = some mode ∧ OriginSound request d.mappings mode ∧
    ModeSound U request d.mappings mode
  bytes : (request.candidate.files.map TorrentFile.size).sum < 2 ^ 64 → BytesSound request d

theorem bytes_decision (hacc : (request.candidate.files.map TorrentFile.ordinal).Nodup)
    {mappings : List FileMapping} (hnodup : (mappings.map FileMapping.candidateOrdinal).Nodup)
    (hfiles : ∀ m ∈ mappings, ∃ file source sourceFile, MappingOf request m file source sourceFile)
    (hsum : (request.candidate.files.map TorrentFile.size).sum < 2 ^ 64)
    (mode : MatchMode) (n : ℕ) : BytesSound request (decision request mode mappings n) := by
  have hmapped : (mappings.map FileMapping.size).sum ≤
      (request.candidate.files.map TorrentFile.size).sum := by
    refine sum_mapped_le mappings _ hnodup fun m hm => ?_
    obtain ⟨file, source, sourceFile, h⟩ := hfiles m hm
    exact ⟨file, h.file_mem, h.ordinal.symm, h.size.symm⟩
  have htotal : totalRequired request ≤ (request.candidate.files.map TorrentFile.size).sum :=
    (List.filter_sublist.map _).sum_le_sum fun _ _ => Nat.zero_le _
  have hrequired : requiredMapped request mappings ≤ totalRequired request := by
    refine sum_mapped_le _ _ (hnodup.sublist (List.filter_sublist.map _)) fun m hm => ?_
    obtain ⟨hm, hreq⟩ := List.mem_filter.mp hm
    obtain ⟨file, hfile, hord, hp⟩ := (mappedFile_iff hacc).mp hreq
    obtain ⟨file', source, sourceFile, h⟩ := hfiles m hm
    have : file' = file :=
      List.inj_on_of_nodup_map hacc h.file_mem hfile (h.ordinal.symm.trans hord.symm)
    exact ⟨file, List.mem_filter.mpr ⟨hfile, hp⟩, hord, by rw [← this, h.size]⟩
  have hbytes : requiredBytes request = totalRequired request :=
    sumU64_eq (by unfold totalRequired at *; omega)
  have hmreq : mappedRequired request mappings = requiredMapped request mappings :=
    sumU64_eq (by unfold requiredMapped at *; omega)
  refine ⟨sumU64_eq (by omega), ?_, ?_⟩
  · simp only [decision, hbytes, hmreq]
    omega
  · simp only [decision, hbytes, hmreq, ratioFromBytes]
    split_ifs with hzero
    · rfl
    · refine Nat.mod_eq_of_lt ?_
      have hle : requiredMapped request mappings * 1000000 / totalRequired request ≤ 1000000 :=
        Nat.div_le_of_le_mul (Nat.mul_le_mul_right _ hrequired)
      omega

section

variable {source : LocalSourceManifest}

theorem mem_sourceFiles {file : SourceFile} :
    file ∈ sourceFiles source ↔ file.1 = source.id ∧ file.2 ∈ source.files := by
  obtain ⟨id, file⟩ := file
  simp [sourceFiles, eq_comm, and_comm]

theorem nodup_keys_sourceFiles (h : (source.files.map LocalSourceFile.id).Nodup) :
    ((sourceFiles source).map fun file => (file.1, file.2.id)).Nodup := by
  have : ((sourceFiles source).map fun file => (file.1, file.2.id)) =
      (source.files.map LocalSourceFile.id).map (source.id, ·) := by
    simp [sourceFiles]
  rw [this]
  exact h.map fun a b hab => (Prod.mk.inj hab).2

theorem mem_episodeSources {sources : List LocalSourceManifest} {file : SourceFile} :
    file ∈ episodeSources request sources ↔ ∃ source ∈ sources,
      isEpisodeSource request source = true ∧
      file.1 = source.id ∧ file.2 ∈ source.files := by
  rw [episodeSources, List.mem_flatMap]
  simp only [List.mem_filter, mem_sourceFiles, and_assoc]

theorem nodup_keys_episodeSources (request : MatchRequest) {sources : List LocalSourceManifest}
    (hids : (sources.map LocalSourceManifest.id).Nodup)
    (hfiles : ∀ source ∈ sources, (source.files.map LocalSourceFile.id).Nodup) :
    ((episodeSources request sources).map fun file => (file.1, file.2.id)).Nodup := by
  rw [episodeSources, List.map_flatMap, List.nodup_flatMap]
  constructor
  · exact fun source hs => nodup_keys_sourceFiles (hfiles source (List.mem_of_mem_filter hs))
  · have hne : (sources.filter (isEpisodeSource request)).Pairwise fun a b => a.id ≠ b.id :=
      List.pairwise_map.mp (hids.sublist (List.filter_sublist.map _))
    refine hne.imp fun {a b} hab => ?_
    intro key ha hb
    obtain ⟨fa, hfa, rfl⟩ := List.mem_map.mp ha
    obtain ⟨fb, hfb, heq⟩ := List.mem_map.mp hb
    refine hab ?_
    rw [← (mem_sourceFiles.mp hfa).1, ← (mem_sourceFiles.mp hfb).1]
    exact (Prod.mk.inj heq).1.symm

end

/-- The conditions of the mode chosen for one source. -/
theorem sourceMode_sound {mappings : List FileMapping} {mode : MatchMode}
    (h : sourceMode request.policy (candidateFiles request.candidate) mappings = some mode) :
    mode ≠ .seasonFromEpisodes ∧ ModeSound U request mappings mode := by
  have hmem : ∀ file ∈ request.candidate.files, required request.policy file = true →
      file ∈ (candidateFiles request.candidate).filter (required request.policy) := by
    intro file hfile hreq
    refine List.mem_filter.mpr ⟨mem_candidateFiles.mpr ⟨hfile, ?_⟩, hreq⟩
    simp only [required, Bool.and_eq_true, Bool.not_eq_true'] at hreq
    exact hreq.1
  unfold sourceMode at h
  simp only at h
  split_ifs at h with hstrict hflexible hpartial <;> obtain rfl := Option.some.inj h
  · refine ⟨by simp, fun file hfile hreq => ?_⟩
    simp only [Bool.and_eq_true, List.all_eq_true] at hstrict
    have := hstrict.2 file (hmem file hfile hreq)
    simpa using this
  · refine ⟨by simp, fun file hfile hreq => ?_, (Bool.and_eq_true _ _ ▸ hflexible).2⟩
    simp only [Bool.and_eq_true, List.all_eq_true] at hflexible
    have := hflexible.1 file (hmem file hfile hreq)
    simpa using this
  · simp only [Bool.and_eq_true, decide_eq_true_eq] at hpartial
    obtain ⟨m, hm, hp⟩ := List.countP_pos_iff.mp hpartial.1
    exact ⟨by simp, hpartial.2, m, hm, mappedFile_candidateFiles hp⟩

theorem originSound_of_source {source : LocalSourceManifest} {mappings : List FileMapping}
    {mode : MatchMode} (hmode : mode ≠ .seasonFromEpisodes) (hmem : source ∈ request.sources)
    (havailable : source.available = true)
    (hcompatible : compatible request.candidateRelease source.release false = .ok ())
    (hid : ∀ m ∈ mappings, m.sourceId = source.id) : OriginSound request mappings mode := by
  cases mode with
  | seasonFromEpisodes => exact absurd rfl hmode
  | _ => exact ⟨source, hmem, havailable, hcompatible, hid⟩

/-- The mappings of an assignment between the candidate and one source. -/
theorem mapping_of_source {source : LocalSourceManifest} {pairs : List (ℕ × ℕ × ℕ)}
    (hassign : assign U request.policy (candidateFiles request.candidate) (sourceFiles source) =
      .ok ⟨pairs, false⟩)
    (hmem : source ∈ request.sources) (havailable : source.available = true) :
    ∀ m ∈ buildMappings (candidateFiles request.candidate) (sourceFiles source) ⟨pairs, false⟩,
      ∃ file sourceFile, MappingOf request m file source sourceFile := by
  intro m hm
  obtain ⟨file, sf, hfile, hsf, hord, hpath, hsize, hsid, hsfid, hspath, hscore⟩ :=
    mapping_score hassign hm
  obtain ⟨hfile, hpad⟩ := mem_candidateFiles.mp hfile
  obtain ⟨hid, hsf⟩ := mem_sourceFiles.mp hsf
  exact ⟨file, sf.2, ⟨hfile, hpad, hord, hpath, hmem, havailable, hsid.trans hid, hsf,
    hsfid, hspath, hsize, (edgeScore_eq_some hscore).1⟩⟩

theorem sound_of_source (hacc : Accepted U request.candidate.files) {source : LocalSourceManifest}
    (hfiles : (source.files.map LocalSourceFile.id).Nodup) (hmem : source ∈ request.sources)
    (havailable : source.available = true)
    (hcompatible : compatible request.candidateRelease source.release false = .ok ())
    {d : MatchDecision} (h : evaluateSource U request source = .decision d) :
      Sound U request d := by
  obtain ⟨pairs, mode, hassign, hmode, rfl⟩ := evaluateSource_decision h
  have hmapping := mapping_of_source hassign hmem havailable
  have hfound : ∀ m ∈ buildMappings (candidateFiles request.candidate) (sourceFiles source) ⟨pairs,
    false⟩,
      ∃ file source sourceFile, MappingOf request m file source sourceFile := fun m hm => by
    obtain ⟨file, sourceFile, hof⟩ := hmapping m hm
    exact ⟨file, source, sourceFile, hof⟩
  have hnodup := nodup_ordinals (nodup_candidateFiles hacc) hassign
  obtain ⟨hne, hsound⟩ := sourceMode_sound (U := U) hmode
  refine ⟨hfound, hnodup, nodup_sourceKeys (nodup_keys_sourceFiles hfiles) hassign,
    ⟨mode, rfl, ?_, hsound⟩, fun hsum => bytes_decision hacc.ordinals hnodup hfound hsum mode 1⟩
  refine originSound_of_source hne hmem havailable hcompatible fun m hm => ?_
  obtain ⟨file, sourceFile, hof⟩ := hmapping m hm
  exact hof.sourceId

theorem episodeAgreement_iff {p q : Str} : episodeAgreement U p q = true ↔
    ∃ key ∈ episodeKeys U p, key ∈ episodeKeys U q := by
  simp [episodeAgreement]

/-- The mappings of an assignment between a season and its episodes. -/
theorem mapping_of_season {pairs : List (ℕ × ℕ × ℕ)}
    (hassign : assignSeason U request.policy (candidateFiles request.candidate)
      (episodeSources request (availableSources request)) = .ok ⟨pairs, false⟩) :
    ∀ m ∈ buildMappings (candidateFiles request.candidate)
      (episodeSources request (availableSources request))
        ⟨pairs, false⟩,
      ∃ file source sourceFile, MappingOf request m file source sourceFile
        ∧ isEpisodeSource request source = true ∧
        (primary request.policy file = true →
          episodeAgreement U m.candidatePath m.sourcePath = true) := by
  intro m hm
  obtain ⟨file, sf, hfile, hsf, hord, hpath, hsize, hsid, hsfid, hspath, hscore⟩ :=
    mapping_score hassign hm
  obtain ⟨hfile, hpad⟩ := mem_candidateFiles.mp hfile
  obtain ⟨source, hsource, hepisode, hid, hsf⟩ := mem_episodeSources.mp hsf
  obtain ⟨hsource, havailable⟩ := mem_availableSources.mp hsource
  obtain ⟨hsame, -, -, hagree, -⟩ := edgeScore_eq_some hscore
  refine ⟨file, source, sf.2, ⟨hfile, hpad, hord, hpath, hsource, havailable, hsid.trans hid,
    hsf, hsfid, hspath, hsize, hsame⟩, hepisode, fun hprimary => ?_⟩
  rw [hpath, hspath]
  exact hagree rfl hprimary

theorem sound_of_season (hacc : Accepted U request.candidate.files)
    (hids : (request.sources.map LocalSourceManifest.id).Nodup)
    (hfiles : ∀ source ∈ request.sources, (source.files.map LocalSourceFile.id).Nodup)
    {d : MatchDecision} (h : evaluateSeason U request (availableSources request) = .decision d) :
    Sound U request d := by
  obtain ⟨pairs, hassign, hany, n, rfl⟩ := evaluateSeason_decision h
  have hmapping := mapping_of_season hassign
  have hfound := fun m hm => (hmapping m hm).imp fun _ => Exists.imp fun _ =>
    Exists.imp fun _ => And.left
  have hnodup := nodup_ordinals (nodup_candidateFiles hacc) hassign
  have havailable : ((availableSources request).map LocalSourceManifest.id).Nodup := by
    have hperm : ((availableSources request).map LocalSourceManifest.id).Perm
        ((request.sources.filter LocalSourceManifest.available).map LocalSourceManifest.id) :=
      (List.perm_insertionSort _ _).map _
    rw [hperm.nodup_iff]
    exact hids.sublist (List.filter_sublist.map _)
  have hkeys := nodup_keys_episodeSources request havailable
    fun source hs => hfiles source (mem_availableSources.mp hs).1
  refine ⟨hfound, hnodup, nodup_sourceKeys hkeys hassign,
    ⟨.seasonFromEpisodes, rfl, fun m hm => ?_, ?_, fun m hm hprimary => ?_⟩,
    fun hsum => bytes_decision hacc.ordinals hnodup hfound hsum _ n⟩
  · obtain ⟨file, source, sf, hof, hepisode, -⟩ := hmapping m hm
    simp only [isEpisodeSource, Bool.and_eq_true, decide_eq_true_eq] at hepisode
    exact ⟨source, hof.source_mem, hof.sourceId.symm, hepisode.1.2, hepisode.2⟩
  · obtain ⟨m, hm, hp⟩ := List.any_eq_true.mp hany
    exact ⟨m, hm, mappedFile_candidateFiles hp⟩
  · obtain ⟨file, source, sf, hof, -, hagree⟩ := hmapping m hm
    obtain ⟨file', hfile', hord, hp⟩ := hprimary
    have : file = file' :=
      hacc.ordinal_inj hof.file_mem hfile' (hof.ordinal.symm.trans hord.symm)
    exact episodeAgreement_iff.mp (hagree (this ▸ hp))

/-- The mappings and the byte counts of a match, whatever the ids of the sources and of their files
are. -/
theorem evaluate_mapped (h : (evaluate U request).outcome = .matched) :
    (∀ m ∈ (evaluate U request).mappings, ∃ file source sourceFile,
      MappingOf request m file source sourceFile) ∧
      ((evaluate U request).mappings.map FileMapping.candidateOrdinal).Nodup ∧
      ((request.candidate.files.map TorrentFile.size).sum < 2 ^ 64 →
        BytesSound request (evaluate U request)) := by
  have hacc := (evaluate_matched h).1.accepted
  rcases evaluate_matched_source h with ⟨source, hmem, havailable, -, he⟩ | ⟨-, he⟩
  · obtain ⟨pairs, mode, hassign, -, hd⟩ := evaluateSource_decision he
    have hfound : ∀ m ∈ buildMappings (candidateFiles request.candidate)
      (sourceFiles source) ⟨pairs, false⟩,
        ∃ file source sourceFile, MappingOf request m file source sourceFile := fun m hm => by
      obtain ⟨file, sourceFile, hof⟩ := mapping_of_source hassign hmem havailable m hm
      exact ⟨file, source, sourceFile, hof⟩
    have hnodup := nodup_ordinals (nodup_candidateFiles hacc) hassign
    rw [hd]
    exact ⟨hfound, hnodup, fun hsum => bytes_decision hacc.ordinals hnodup hfound hsum mode 1⟩
  · obtain ⟨pairs, hassign, -, n, hd⟩ := evaluateSeason_decision he
    have hfound := fun m hm =>
      (mapping_of_season hassign m hm).imp fun _ => Exists.imp fun _ => Exists.imp fun _ => And.left
    have hnodup := nodup_ordinals (nodup_candidateFiles hacc) hassign
    rw [hd]
    exact ⟨hfound, hnodup, fun hsum => bytes_decision hacc.ordinals hnodup hfound hsum _ n⟩

/-- **Soundness**: what a match says about the files, the mode and the bytes is true. -/
theorem evaluate_sound (U : Unicode) (request : MatchRequest)
    (hids : (request.sources.map LocalSourceManifest.id).Nodup)
    (hfiles : ∀ source ∈ request.sources, (source.files.map LocalSourceFile.id).Nodup)
    (h : (evaluate U request).outcome = .matched) : Sound U request (evaluate U request) := by
  have hacc := (evaluate_matched h).1.accepted
  rcases evaluate_matched_source h with ⟨source, hmem, havailable, hcompatible, he⟩ | ⟨-, he⟩
  · exact sound_of_source hacc (hfiles source hmem) hmem havailable hcompatible he
  · exact sound_of_season hacc hids hfiles he

theorem evaluate_filmRequest_sound :
    (filmRequest.sources.map LocalSourceManifest.id).Nodup ∧
      (∀ source ∈ filmRequest.sources, (source.files.map LocalSourceFile.id).Nodup) ∧
      (evaluate Unicode.ascii filmRequest).outcome = .matched ∧
      Sound Unicode.ascii filmRequest (evaluate Unicode.ascii filmRequest) :=
  ⟨by decide, by decide, by decide +kernel,
    evaluate_sound Unicode.ascii filmRequest (by decide) (by decide) (by decide +kernel)⟩

/-- A season pack with a file of two episodes, and a source with the first of them. -/
def doubleEpisodeRequest : MatchRequest :=
  requestOf "Show.S01" [("Show.S01E01E02.mkv", 10)]
    [sourceOf 1 "Show.S01E01" [("Show.S01E01.mkv", 10)]]

/-- A film in two parts that are too large to be counted in 64 bits. -/
def largeFilmRequest : MatchRequest :=
  requestOf "Film.2020" [("a.mkv", 2 ^ 63), ("b.mkv", 2 ^ 63 + 1)]
    [sourceOf 1 "Film.2020" [("a.mkv", 2 ^ 63), ("b.mkv", 2 ^ 63 + 1)]]

/-- Primary files need one episode key in common, not the same keys, and byte counts wrap around. -/
theorem evaluate_doubleEpisode_largeFilm :
    ((doubleEpisodeRequest.sources.map LocalSourceManifest.id).Nodup ∧
      (∀ source ∈ doubleEpisodeRequest.sources, (source.files.map LocalSourceFile.id).Nodup) ∧
      (evaluate Unicode.ascii doubleEpisodeRequest).outcome = .matched ∧
      (evaluate Unicode.ascii doubleEpisodeRequest).mode = some .seasonFromEpisodes ∧
      ¬∀ m ∈ (evaluate Unicode.ascii doubleEpisodeRequest).mappings,
        (doubleEpisodeRequest.candidate.files.any fun file =>
          file.ordinal = m.candidateOrdinal && primary doubleEpisodeRequest.policy file) = true →
        (∀ key ∈ episodeKeys Unicode.ascii m.candidatePath,
          key ∈ episodeKeys Unicode.ascii m.sourcePath)) ∧
    ((largeFilmRequest.sources.map LocalSourceManifest.id).Nodup ∧
      (∀ source ∈ largeFilmRequest.sources, (source.files.map LocalSourceFile.id).Nodup) ∧
      (evaluate Unicode.ascii largeFilmRequest).outcome = .matched ∧
      (evaluate Unicode.ascii largeFilmRequest).mappedBytes ≠
        ((evaluate Unicode.ascii largeFilmRequest).mappings.map FileMapping.size).sum) := by
  refine ⟨⟨by decide, by decide, by decide +kernel, by decide +kernel, by decide +kernel⟩,
    by decide, by decide, by decide +kernel, by decide +kernel⟩

end Sporos.Matcher.Soundness

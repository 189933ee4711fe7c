import Sporos.Matcher.Evaluate
import Sporos.Matcher.Permute

/-! # The order of the request

The decision about a request does not depend on the order of its sources, of the files of a source
or of the candidate's files. The candidate's files and the sources are sorted before they are used;
the order of a source's files survives only as the order of indices, which the assignment does not
depend on. -/

namespace Sporos.Matcher.Invariance

open Sporos.Model.Matching
open Sporos.Matcher.Release
open Sporos.Matcher.Files
open Sporos.Matcher.Assign
open Sporos.Matcher.Heaviest
open Sporos.Matcher.Permute
open Sporos.Matcher.Evaluate
open Sporos.Lib.Loop
open Sporos.Lib.Lists

/-! ### Mappings -/

section

variable {policy : MatchingPolicy} {candidates : List TorrentFile}
  {sources sources' : List SourceFile}
variable {score : TorrentFile → LocalSourceFile → Option ℕ} {U : Unicode}

/-- A candidate occurs in at most one pair. -/
theorem pairs_row_inj (hpos : ∀ file source v, score file source = some v → 0 < v)
    {pairs : List (ℕ × ℕ × ℕ)} (h : assignWith policy candidates sources score = .ok ⟨pairs, false⟩)
    {p q : ℕ × ℕ × ℕ} (hp : p ∈ pairs) (hq : q ∈ pairs) (heq : p.1 = q.1) : p = q := by
  obtain ⟨hunique, hnodup, -⟩ := assignWith_ok hpos h
  have hmem : ∀ {r}, r ∈ pairs → ends r ∈ edgeSet pairs :=
    fun hr => List.mem_toFinset.mpr (List.mem_map_of_mem hr)
  exact List.inj_on_of_nodup_map hnodup hp hq (hunique.row _ (hmem hp) _ (hmem hq) heq)

/-- A source occurs in at most one pair. -/
theorem pairs_column_inj (hpos : ∀ file source v, score file source = some v → 0 < v)
    {pairs : List (ℕ × ℕ × ℕ)} (h : assignWith policy candidates sources score = .ok ⟨pairs, false⟩)
    {p q : ℕ × ℕ × ℕ} (hp : p ∈ pairs) (hq : q ∈ pairs) (heq : p.2.1 = q.2.1) : p = q := by
  obtain ⟨hunique, hnodup, -⟩ := assignWith_ok hpos h
  have hmem : ∀ {r}, r ∈ pairs → ends r ∈ edgeSet pairs :=
    fun hr => List.mem_toFinset.mpr (List.mem_map_of_mem hr)
  exact List.inj_on_of_nodup_map hnodup hp hq (hunique.column _ (hmem hp) _ (hmem hq) heq)

/-- What a mapping was built from. -/
theorem buildMapping_eq_some {pair : ℕ × ℕ × ℕ} {mapping : FileMapping} :
    buildMapping candidates sources pair = some mapping ↔
      ∃ candidate source, candidates[pair.1]? = some candidate ∧ sources[pair.2.1]? = some source ∧
        mapping =
          { candidateOrdinal := candidate.ordinal
            sourceId := source.1
            sourceFileId := source.2.id
            candidatePath := candidate.path
            sourcePath := source.2.path
            size := candidate.size
            score := pair.2.2 } := by
  unfold buildMapping
  cases hc : candidates[pair.1]? <;> cases hs : sources[pair.2.1]? <;> simp [eq_comm]

theorem mem_buildMappings {assignment : Assignment} {mapping : FileMapping} :
    mapping ∈ buildMappings candidates sources assignment ↔
      ∃ pair ∈ assignment.pairs, buildMapping candidates sources pair = some mapping := by
  rw [buildMappings, List.mem_insertionSort, List.mem_filterMap]

/-- Mappings with one candidate ordinal are one mapping. -/
theorem mapping_ordinal_inj (hpos : ∀ file source v, score file source = some v → 0 < v)
    (hord : (candidates.map TorrentFile.ordinal).Nodup) {pairs : List (ℕ × ℕ × ℕ)}
    (h : assignWith policy candidates sources score = .ok ⟨pairs, false⟩) {m m' : FileMapping}
    (hm : m ∈ pairs.filterMap (buildMapping candidates sources))
    (hm' : m' ∈ pairs.filterMap (buildMapping candidates sources))
    (heq : m.candidateOrdinal = m'.candidateOrdinal) : m = m' := by
  obtain ⟨p, hp, hpm⟩ := List.mem_filterMap.mp hm
  obtain ⟨q, hq, hqm⟩ := List.mem_filterMap.mp hm'
  obtain ⟨c, s, hc, -, hcm⟩ := buildMapping_eq_some.mp hpm
  obtain ⟨c', s', hc', -, hcm'⟩ := buildMapping_eq_some.mp hqm
  have hcc : c = c' := List.inj_on_of_nodup_map hord (List.mem_of_getElem? hc)
    (List.mem_of_getElem? hc') (by rw [hcm, hcm'] at heq; exact heq)
  have hindex : p.1 = q.1 := by
    rw [← hcc] at hc'
    exact (List.getElem?_inj (List.getElem?_eq_some_iff.mp hc).1 hord.of_map).mp
      (hc.trans hc'.symm)
  rw [pairs_row_inj hpos h hp hq hindex, hqm] at hpm
  exact (Option.some.inj hpm).symm

/-- The order of the source files does not change the mappings. -/
theorem assignWith_mappings (policy : MatchingPolicy)
    (hpos : ∀ file source v, score file source = some v → 0 < v)
    (hord : (candidates.map TorrentFile.ordinal).Nodup) (hperm : sources.Perm sources') :
    Agree (fun a a' => a'.ambiguous = a.ambiguous ∧ (a.ambiguous = false →
        buildMappings candidates sources' a' = buildMappings candidates sources a))
      (assignWith policy candidates sources score)
        (assignWith policy candidates sources' score) := by
  obtain ⟨σ, hσ⟩ := exists_perm_getElem? hperm
  have hagree := assignWith_perm policy candidates hσ hperm.length_eq.symm hpos
  rcases hagree.cases with ⟨e, ha, ha'⟩ | ⟨a, a', ha, ha', hamb', hpairs⟩ <;> rw [ha, ha']
  · rfl
  · refine ⟨hamb', fun hamb => ?_⟩
    obtain ⟨pairs, amb⟩ := a
    obtain rfl : amb = false := hamb
    have hrename : ∀ p, buildMapping candidates sources' (renamePair σ p) =
        buildMapping candidates sources p := fun p => by
      simp only [buildMapping, renamePair, hσ]
    have hmaps : (pairs.filterMap (buildMapping candidates sources)).Perm
        (a'.pairs.filterMap (buildMapping candidates sources')) := by
      refine List.Perm.symm ((hpairs.filterMap _).trans (List.Perm.of_eq ?_))
      rw [List.filterMap_map]
      exact List.filterMap_congr fun p _ => hrename p
    exact (insertionSort_perm hmaps fun m hm m' hm' =>
      mapping_ordinal_inj hpos hord ha hm hm').symm

end

/-! ### Rearranged requests -/

/-- The same source with its files in another order. -/
structure SameSource (source source' : LocalSourceManifest) : Prop where
  id : source'.id = source.id
  kind : source'.kind = source.kind
  release : source'.release = source.release
  hashes : source'.hashes = source.hashes
  files : source.files.Perm source'.files
  available : source'.available = source.available

/-- The same request with its sources, the files of the sources and the candidate's files in another
order. -/
structure Rearranged (request request' : MatchRequest) : Prop where
  hashes : request'.candidate.hashes = request.candidate.hashes
  files : request.candidate.files.Perm request'.candidate.files
  pieceLength : request'.candidate.pieceLength = request.candidate.pieceLength
  pieceFiles : request'.candidate.pieceFiles = request.candidate.pieceFiles
  release : request'.candidateRelease = request.candidateRelease
  sources : ∃ sources, List.Forall₂ SameSource request.sources sources
    ∧ sources.Perm request'.sources
  policy : request'.policy = request.policy

section

variable {U : Unicode} {request request' : MatchRequest}

theorem Rearranged.baseEvidence (h : Rearranged request request') :
    baseEvidence request' = baseEvidence request := by
  simp only [Evaluate.baseEvidence, h.policy, h.files.length_eq, h.files.countP_eq]

theorem Rearranged.requiredBytes (h : Rearranged request request') :
    requiredBytes request' = requiredBytes request := by
  rw [Evaluate.requiredBytes, Evaluate.requiredBytes, h.policy]
  exact (sumU64_perm ((h.files.filter _).map _)).symm

theorem Rearranged.any_sources (h : Rearranged request request') {p : LocalSourceManifest → Bool}
    (hp : ∀ source source', SameSource source source' → p source = p source') :
    request'.sources.any p = request.sources.any p := by
  obtain ⟨l, hl, hperm⟩ := h.sources
  rw [any_forall₂ hp hl]
  exact (hperm.any_eq).symm

theorem Rearranged.sharesHash (h : Rearranged request request') :
    sharesHash request' = sharesHash request := by
  unfold Evaluate.sharesHash
  rw [h.hashes]
  exact h.any_sources fun source source' hs => by rw [hs.hashes]

theorem Rearranged.mappedFile (h : Rearranged request request')
    (hacc : Accepted U request.candidate.files) (p : TorrentFile → Bool) :
    mappedFile request'.candidate.files p = mappedFile request.candidate.files p := by
  funext mapping
  rw [Evaluate.mappedFile, Evaluate.mappedFile]
  refine congrArg (Option.any p) (find?_perm h.files fun a ha b hb hpa hpb => ?_).symm
  simp only [decide_eq_true_eq] at hpa hpb
  exact hacc.ordinal_inj ha hb (hpa.trans hpb.symm)

theorem Rearranged.decision (h : Rearranged request request')
    (hacc : Accepted U request.candidate.files) (mode : MatchMode) (mappings : List FileMapping)
    (compatibleSources : ℕ) :
    decision request' mode mappings compatibleSources =
      decision request mode mappings compatibleSources := by
  have hqbit : ∀ id : SourceId, (request'.sources.any fun source =>
      source.id = id && source.kind = .qbittorrentTorrent) = request.sources.any fun source =>
      source.id = id && source.kind = .qbittorrentTorrent := fun id =>
    h.any_sources fun source source' hs => by rw [hs.id, hs.kind]
  have hreq : mappedRequired request' mappings = mappedRequired request mappings := by
    rw [mappedRequired, mappedRequired, h.policy, h.mappedFile hacc]
  unfold Evaluate.decision
  simp only [h.baseEvidence, h.requiredBytes, hreq, h.policy, h.mappedFile hacc, hqbit]

theorem Rearranged.candidateFiles (h : Rearranged request request')
    (hacc : Accepted U request.candidate.files) :
    candidateFiles request'.candidate = candidateFiles request.candidate := by
  unfold Evaluate.candidateFiles
  refine (insertionSort_perm (h.files.filter _) fun a ha b hb hab => ?_).symm
  exact hacc.ordinal_inj (List.mem_of_mem_filter ha) (List.mem_of_mem_filter hb) hab

theorem nodup_candidateFiles (hacc : Accepted U request.candidate.files) :
    ((candidateFiles request.candidate).map TorrentFile.ordinal).Nodup := by
  have hperm : ((candidateFiles request.candidate).map TorrentFile.ordinal).Perm
      ((request.candidate.files.filter fun file => !file.padding).map TorrentFile.ordinal) :=
    (List.perm_insertionSort _ _).map _
  rw [hperm.nodup_iff]
  exact hacc.ordinals.sublist (List.filter_sublist.map _)

theorem fileFailureReason_perm {files : List TorrentFile} {sources sources' : List SourceFile}
    {policy : MatchingPolicy} (h : sources.Perm sources') :
    fileFailureReason files sources' policy = fileFailureReason files sources policy := by
  unfold fileFailureReason
  simp only [h.any_eq]

theorem edgeScore_pos (U : Unicode) (policy : MatchingPolicy) (seasonMode : Bool)
    (file : TorrentFile) (source : LocalSourceFile) (v : ℕ)
    (h : edgeScore U policy seasonMode file source = some v) : 0 < v :=
  (edgeScore_eq_some h).2.2.2.2

theorem Rearranged.evaluateSource (h : Rearranged request request')
    (hacc : Accepted U request.candidate.files) {source source' : LocalSourceManifest}
    (hs : SameSource source source') :
    evaluateSource U request' source' = evaluateSource U request source := by
  have hfiles : (sourceFiles source).Perm (sourceFiles source') := by
    unfold sourceFiles
    rw [hs.id]
    exact hs.files.map _
  have hagree := assignWith_mappings request.policy (edgeScore_pos U request.policy false)
    (nodup_candidateFiles hacc) hfiles
  unfold Evaluate.evaluateSource
  simp only [h.policy, h.candidateFiles hacc, assign]
  rcases hagree.cases with ⟨⟨⟩, ha, ha'⟩ | ⟨a, a', ha, ha', hamb, hmaps⟩ <;> rw [ha, ha']
  simp only [hamb]
  split_ifs with hambiguous
  · rfl
  · rw [hmaps (by simpa using hambiguous), fileFailureReason_perm hfiles]
    split <;> simp only [h.decision hacc]

theorem Rearranged.evaluateRelease (h : Rearranged request request')
    (hacc : Accepted U request.candidate.files) {source source' : LocalSourceManifest}
    (hs : SameSource source source') :
    evaluateRelease U request' source' = evaluateRelease U request source := by
  unfold Evaluate.evaluateRelease
  rw [h.release, hs.release, h.evaluateSource hacc hs]

theorem Rearranged.episodeSources (h : Rearranged request request')
    {sources sources' : List LocalSourceManifest} (hs : List.Forall₂ SameSource sources sources') :
    (episodeSources request sources).Perm (episodeSources request' sources') := by
  have hfilter : List.Forall₂ SameSource (sources.filter (isEpisodeSource request))
      (sources'.filter (isEpisodeSource request')) :=
    forall₂_filter
      (fun source source' hs => by simp only [isEpisodeSource, h.release, hs.release]) hs
  unfold Evaluate.episodeSources
  generalize sources.filter (isEpisodeSource request) = l at hfilter
  generalize sources'.filter (isEpisodeSource request') = l' at hfilter
  induction hfilter with
  | nil => exact .refl _
  | cons hss _ ih =>
    rw [List.flatMap_cons, List.flatMap_cons]
    refine List.Perm.append ?_ ih
    unfold sourceFiles
    rw [hss.id]
    exact hss.files.map _

theorem Rearranged.evaluateSeason (h : Rearranged request request')
    (hacc : Accepted U request.candidate.files) {sources sources' : List LocalSourceManifest}
    (hs : List.Forall₂ SameSource sources sources') :
    evaluateSeason U request' sources' = evaluateSeason U request sources := by
  have hfiles := h.episodeSources hs
  have hagree := assignWith_mappings request.policy (edgeScore_pos U request.policy true)
    (nodup_candidateFiles hacc) hfiles
  unfold Evaluate.evaluateSeason
  rw [hfiles.isEmpty_eq]
  simp only [h.policy, h.candidateFiles hacc, assignSeason]
  split
  · rfl
  rcases hagree.cases with ⟨⟨⟩, ha, ha'⟩ | ⟨a, a', ha, ha', hamb, hmaps⟩ <;> rw [ha, ha']
  by_cases hambiguous : a.ambiguous = true
  · simp only [hamb, hambiguous, if_true]
  · simp only [hamb, hambiguous, hmaps (by simpa using hambiguous), h.decision hacc]

/-! ### The evaluation -/

theorem foldlM_addSourceFiles (request : MatchRequest) (candidates : ℕ) :
    ∀ (sources : List LocalSourceManifest) (total : ℕ), candidates ≤ total →
      ((sources.foldlM (addSourceFiles request candidates) total).isNone = true ↔
        sources ≠ [] ∧ total + (sources.map fun source => source.files.length).sum >
          request.policy.maxAssignmentFiles)
  | [], total, _ => by simp
  | source :: sources, total, htotal => by
    rw [List.foldlM_cons, addSourceFiles]
    simp only [List.map_cons, List.sum_cons, ne_eq, reduceCtorEq, not_false_eq_true, true_and]
    by_cases hfit : source.files.length ≤ request.policy.maxAssignmentFiles - candidates ∧
        total + source.files.length ≤ request.policy.maxAssignmentFiles
    · rw [if_pos hfit]
      have ih := foldlM_addSourceFiles request candidates sources (total + source.files.length)
        (by omega)
      refine ih.trans ?_
      cases sources with
      | nil => simp; omega
      | cons _ _ => simp only [ne_eq, reduceCtorEq, not_false_eq_true, true_and, Nat.add_assoc]
    · rw [if_neg hfit]
      simp only [Option.bind_eq_bind, Option.bind_none, Option.isNone_none, true_iff]
      omega

/-- The number of files of the available sources. -/
theorem Rearranged.fileCount (h : Rearranged request request') :
    ((request'.sources.filter LocalSourceManifest.available).map fun s => s.files.length).Perm
      ((request.sources.filter LocalSourceManifest.available).map fun s => s.files.length) := by
  obtain ⟨l, hl, hperm⟩ := h.sources
  refine ((hperm.filter _).map _).symm.trans (List.Perm.of_eq ?_)
  have hfilter : List.Forall₂ SameSource (request.sources.filter LocalSourceManifest.available)
      (l.filter LocalSourceManifest.available) :=
    forall₂_filter (fun source source' hs => hs.available.symm) hl
  generalize request.sources.filter LocalSourceManifest.available = xs at hfilter
  generalize l.filter LocalSourceManifest.available = ys at hfilter
  induction hfilter with
  | nil => rfl
  | cons hs _ ih => simp only [List.map_cons, ih, hs.files.length_eq]

theorem Rearranged.inputBudgetExceeded (h : Rearranged request request') :
    inputBudgetExceeded request' = inputBudgetExceeded request := by
  unfold Evaluate.inputBudgetExceeded
  have hnil : request'.sources.filter LocalSourceManifest.available ≠ [] ↔
      request.sources.filter LocalSourceManifest.available ≠ [] := by
    rw [← List.length_pos_iff, ← List.length_pos_iff]
    have := h.fileCount.length_eq
    simp only [List.length_map] at this
    rw [this]
  rw [h.files.countP_eq, h.policy]
  simp only
  split_ifs with hmany
  · rfl
  · rw [Bool.eq_iff_iff, foldlM_addSourceFiles _ _ _ _ le_rfl, foldlM_addSourceFiles _ _ _ _ le_rfl,
      h.policy, h.fileCount.sum_eq, hnil]

theorem map_id_of_sameSource {l l' : List LocalSourceManifest} (h : List.Forall₂ SameSource l l') :
    l'.map LocalSourceManifest.id = l.map LocalSourceManifest.id := by
  induction h with
  | nil => rfl
  | cons hs _ ih => simp only [List.map_cons, ih, hs.id]

theorem Rearranged.availableSources (h : Rearranged request request')
    (hids : (request.sources.map LocalSourceManifest.id).Nodup) :
    List.Forall₂ SameSource (availableSources request) (availableSources request') := by
  obtain ⟨l, hl, hperm⟩ := h.sources
  have hsort : List.Forall₂ SameSource (Evaluate.availableSources request)
      ((l.filter LocalSourceManifest.available).insertionSort (ByKey fun s => s.id.toNat)) :=
    forall₂_insertionSort (fun a a' b b' hab hab' => by simp only [ByKey, hab.id, hab'.id])
      (forall₂_filter (fun source source' hs => hs.available.symm) hl)
  have hlids : (l.map LocalSourceManifest.id).Nodup := by rwa [map_id_of_sameSource hl]
  have heq : Evaluate.availableSources request' =
      (l.filter LocalSourceManifest.available).insertionSort (ByKey fun s => s.id.toNat) := by
    refine (insertionSort_perm (hperm.filter _) fun a ha b hb hab => ?_).symm
    exact List.inj_on_of_nodup_map hlids (List.mem_of_mem_filter ha) (List.mem_of_mem_filter hb)
      (BitVec.eq_of_toNat_eq hab)
  rw [heq]
  exact hsort

theorem Rearranged.collect (h : Rearranged request request')
    (hacc : Accepted U request.candidate.files)
    (hids : (request.sources.map LocalSourceManifest.id).Nodup) :
    collect U request' = collect U request := by
  have hsources := h.availableSources hids
  unfold Evaluate.collect
  have hstep : ∀ source source', SameSource source source' → ∀ acc,
      collectSource U request acc source = collectSource U request' acc source' :=
    fun source source' hs acc => by simp only [collectSource, h.evaluateRelease hacc hs]
  rw [foldlM_forall₂ hstep hsources]
  refine congrArg _ (funext fun acc => ?_)
  have hseason : seasonConsidered request' = seasonConsidered request := by
    simp only [seasonConsidered, h.policy, h.release]
  rw [collectSeason, collectSeason, hseason, h.evaluateSeason hacc hsources]

/-- **Permutation invariance**: the decision does not depend on the order of the sources, of the
files of a source or of the candidate's files. -/
theorem evaluate_rearranged (U : Unicode) {request request' : MatchRequest}
    (hids : (request.sources.map LocalSourceManifest.id).Nodup)
    (h : Rearranged request request') : evaluate U request' = evaluate U request := by
  unfold evaluate
  simp only [h.baseEvidence, validateManifest_perm h.files h.pieceLength]
  cases hvalid : validateManifest U request.candidate with
  | some reason => rfl
  | none =>
    have hacc := (validateManifest_eq_none.mp hvalid).2.2
    simp only [h.sharesHash, h.inputBudgetExceeded, h.collect hacc hids, absence, noMatch,
      h.requiredBytes]

end

/-- Two sources of a film, and the same sources and files in the other order. -/
def filmRequest : MatchRequest :=
  requestOf "Film.2020" [("Film.2020.mkv", 10), ("Film.2020.nfo", 3)]
    [sourceOf 1 "Film.2020" [("Film.2020.nfo", 3), ("Film.2020.mkv", 10)],
      sourceOf 2 "Film.2020" [("f.mkv", 10)]]

/-- The same request with everything in the opposite order. -/
def filmRequestRearranged : MatchRequest :=
  { filmRequest with
    candidate := { filmRequest.candidate with files := filmRequest.candidate.files.reverse }
    sources := (filmRequest.sources.map fun source =>
      { source with files := source.files.reverse }).reverse }

theorem filmRequest_rearranged : Rearranged filmRequest filmRequestRearranged := by
  refine ⟨rfl, (List.reverse_perm _).symm, rfl, rfl, rfl, ⟨_, ?_, (List.reverse_perm _).symm⟩, rfl⟩
  exact .cons ⟨rfl, rfl, rfl, rfl, (List.reverse_perm _).symm, rfl⟩
    (.cons ⟨rfl, rfl, rfl, rfl, (List.reverse_perm _).symm, rfl⟩ .nil)

theorem evaluate_filmRequest_rearranged :
    (filmRequest.sources.map LocalSourceManifest.id).Nodup ∧
      (evaluate Unicode.ascii filmRequest).mode = some .strict ∧
      evaluate Unicode.ascii filmRequestRearranged = evaluate Unicode.ascii filmRequest :=
  ⟨by decide, by decide +kernel,
    evaluate_rearranged Unicode.ascii (by decide) filmRequest_rearranged⟩

end Sporos.Matcher.Invariance

import Sporos.Matcher.Soundness

/-! # Matches without mappings

A candidate without required files satisfies the conditions of the strict mode whatever is mapped,
so that a source with nothing to map gives a match without mappings. It ranks below a match with an
exact path and above every other match of its kind, because it needs fewer sources. -/

namespace Sporos.Matcher.Unlinked

open Sporos.Model.Matching
open Sporos.Matcher.Release
open Sporos.Matcher.Files
open Sporos.Matcher.Assign
open Sporos.Matcher.Heaviest
open Sporos.Matcher.Evaluate
open Sporos.Matcher.Invariance
open Sporos.Matcher.Soundness
open Sporos.Lib.Assignment

variable {U : Unicode} {request : MatchRequest}

/-! ### Scores -/

theorem edgeScore_exact {policy : MatchingPolicy} {seasonMode : Bool} {file : TorrentFile}
    {source : LocalSourceFile} {v : ℕ} (h : edgeScore U policy seasonMode file source = some v)
    (hpath : file.path = source.path) : 1100001 ≤ v := by
  unfold edgeScore at h
  split_ifs at h
  rw [← Option.some.inj h]
  simp only [hpath, scoreRole, scoreExactPath, scoreExactBasename, decide_true, Bool.toNat_true]
  omega

theorem edgeScore_inexact {policy : MatchingPolicy} {seasonMode : Bool} {file : TorrentFile}
    {source : LocalSourceFile} {v : ℕ} (h : edgeScore U policy seasonMode file source = some v)
    (hpath : file.path ≠ source.path) : v ≤ 111111 := by
  have hle : ∀ b : Bool, b.toNat ≤ 1 := Bool.toNat_le
  unfold edgeScore at h
  split_ifs at h
  rw [← Option.some.inj h]
  have h₁ := hle (basename file.path = basename source.path : Bool)
  have h₂ := hle (episodeAgreement U file.path source.path)
  have h₃ := hle (primary policy file && extension file.path = extension source.path : Bool)
  have h₄ := hle (normalizedBasename U file.path source.path)
  have h₅ := hle (directoryAgreement U file.path source.path)
  simp only [hpath, scoreRole, scoreExactPath, scoreExactBasename, scoreEpisode,
    scorePrimaryExtension, scoreNormalizedBasename, scoreDirectory, decide_false, Bool.toNat_false]
  omega

/-- A score exists only within a bucket. -/
theorem mem_candidateBucket_of_edgeScore {policy : MatchingPolicy} {seasonMode : Bool}
    {sources : List SourceFile} {file : TorrentFile} {source : SourceFile} {s : ℕ}
    (hs : sources[s]? = some source) (h : edgeScore U policy seasonMode file source.2 ≠ none) :
    s ∈ candidateBucket policy sources file := by
  obtain ⟨v, hv⟩ := Option.ne_none_iff_exists'.mp h
  obtain ⟨hsize, hprimary, hextension, -, -⟩ := edgeScore_eq_some hv
  refine mem_sourceBucket.mpr ⟨source, hs, ?_⟩
  unfold bucket
  rw [← hsize, ← hprimary]
  cases hp : primary policy file with
  | true => rfl
  | false => rw [hextension hp]

/-- Two files have an edge if and only if they have a score. -/
theorem rawAt_edgeScore {policy : MatchingPolicy} {seasonMode : Bool}
    {candidates : List TorrentFile} {sources : List SourceFile} {c s : ℕ} {file : TorrentFile}
    {source : SourceFile} (hc : candidates[c]? = some file) (hs : sources[s]? = some source) :
    rawAt (allEdges policy candidates sources (edgeScore U policy seasonMode)) c s =
      edgeScore U policy seasonMode file source.2 := by
  rw [rawAt_allEdges, hc, Option.bind_some, scoreAt, hs, Option.bind_some]
  split_ifs with hmem
  · rfl
  · by_contra hne
    exact hmem (mem_candidateBucket_of_edgeScore hs fun h => hne h.symm)

/-! ### Candidates without required files -/

/-- No file of the candidate is required. -/
def NothingRequired (request : MatchRequest) : Prop :=
  ∀ file ∈ request.candidate.files, required request.policy file = false

theorem NothingRequired.primary (h : NothingRequired request) {file : TorrentFile}
    (hf : file ∈ request.candidate.files) : primary request.policy file = false := by
  by_contra hp
  have := required_of_primary request.policy (by simpa using hp)
  rw [h file hf] at this
  cases this

theorem NothingRequired.fileWeight (h : NothingRequired request) {sources : List SourceFile}
    {score : TorrentFile → LocalSourceFile → Option ℕ} (c s : ℕ) :
    fileWeight request.policy (candidateFiles request.candidate) sources score c s =
      rawAt (allEdges request.policy (candidateFiles request.candidate) sources score) c s := by
  unfold Heaviest.fileWeight pairWeight
  cases hc : (candidateFiles request.candidate)[c]? with
  | none =>
    rw [rawAt_allEdges, hc]
    rfl
  | some file =>
    have hmem := (mem_candidateFiles.mp (List.mem_of_getElem? hc)).1
    have hweight : edgeWeight request.policy (candidateFiles request.candidate)
        (allEdges request.policy (candidateFiles request.candidate) sources score) file = id := by
      funext v
      simp [edgeWeight, h file hmem, h.primary hmem]
    rw [Option.bind_some, hweight, Option.map_id, id]

/-- The source is compared with the candidate. -/
structure Compared (request : MatchRequest) (source : LocalSourceManifest) : Prop where
  mem : source ∈ request.sources
  available : source.available = true
  compatible : compatible request.candidateRelease source.release false = .ok ()

/-- Some pair of files of the same path may be paired. -/
def ExactPair (U : Unicode) (request : MatchRequest) (source : LocalSourceManifest) : Prop :=
  ∃ file ∈ request.candidate.files, file.padding = false ∧ ∃ sourceFile ∈ source.files,
    file.path = sourceFile.path ∧ edgeScore U request.policy false file sourceFile ≠ none

/-- No file of the source can be paired with a file of the candidate. -/
def Unpairable (U : Unicode) (request : MatchRequest) (source : LocalSourceManifest) : Prop :=
  ∀ file ∈ request.candidate.files, file.padding = false → ∀ sourceFile ∈ source.files,
    edgeScore U request.policy false file sourceFile = none

section

variable {source : LocalSourceManifest} {pairs : List (ℕ × ℕ × ℕ)}

/-- The mappings of a source. -/
abbrev sourceMappings (request : MatchRequest) (source : LocalSourceManifest)
    (pairs : List (ℕ × ℕ × ℕ)) : List FileMapping :=
  buildMappings (candidateFiles request.candidate) (sourceFiles source) ⟨pairs, false⟩

theorem exists_index {file : TorrentFile} {sourceFile : LocalSourceFile}
    (hfile : file ∈ request.candidate.files) (hpad : file.padding = false)
    (hsource : sourceFile ∈ source.files) :
    ∃ c s : ℕ, (candidateFiles request.candidate)[c]? = some file ∧
      (sourceFiles source)[s]? = some (source.id, sourceFile) := by
  have hmem : (source.id, sourceFile) ∈ sourceFiles source := mem_sourceFiles.mpr ⟨rfl, hsource⟩
  obtain ⟨c, hc⟩ := List.mem_iff_getElem?.mp (mem_candidateFiles.mpr ⟨hfile, hpad⟩)
  obtain ⟨s, hs⟩ := List.mem_iff_getElem?.mp hmem
  exact ⟨c, s, hc, hs⟩

/-- The mapping of a pair of the assignment. -/
theorem exists_mapping
    (h : assign U request.policy (candidateFiles request.candidate) (sourceFiles source) =
      .ok ⟨pairs, false⟩) {pair : ℕ × ℕ × ℕ} (hpair : pair ∈ pairs) :
    ∃ file sf m, (candidateFiles request.candidate)[pair.1]? = some file ∧
      (sourceFiles source)[pair.2.1]? = some sf ∧ m ∈ sourceMappings request source pairs ∧
      m.candidatePath = file.path ∧ m.sourcePath = sf.2.path ∧
      edgeScore U request.policy false file sf.2 = some pair.2.2 := by
  have hraw := (assignWith_ok (edgeScore_pos U request.policy false) h).2.2 pair hpair
  rw [rawAt_allEdges] at hraw
  obtain ⟨file, hfile, hraw⟩ := Option.bind_eq_some_iff.mp hraw
  split_ifs at hraw
  obtain ⟨sf, hsf, hscore⟩ := Option.bind_eq_some_iff.mp hraw
  exact ⟨file, sf, _, hfile, hsf, mem_buildMappings.mpr ⟨pair, hpair,
    buildMapping_eq_some.mpr ⟨file, sf, hfile, hsf, rfl⟩⟩, rfl, rfl, hscore⟩

/-- Without required files, an exact pair of files leaves an exact mapping. -/
theorem exists_exact_mapping (hnone : NothingRequired request)
    (h : assign U request.policy (candidateFiles request.candidate) (sourceFiles source) =
      .ok ⟨pairs, false⟩) (hexact : ExactPair U request source) :
    ∃ m ∈ sourceMappings request source pairs, m.candidatePath = m.sourcePath := by
  by_contra hno
  push Not at hno
  obtain ⟨file, hfile, hpad, sourceFile, hsource, hpath, hscore⟩ := hexact
  obtain ⟨c, s, hc, hs⟩ := exists_index hfile hpad hsource
  obtain ⟨v, hv⟩ := Option.ne_none_iff_exists'.mp hscore
  have hheavy := (assignWith_ok (edgeScore_pos U request.policy false) h).1
  have hlight : ∀ f ∈ edgeSet pairs, (fileWeight request.policy (candidateFiles request.candidate)
      (sourceFiles source) (edgeScore U request.policy false) f.1 f.2).getD 0 ≤ 111111 := by
    intro f hf
    obtain ⟨pair, hpair, rfl⟩ := List.mem_map.mp (List.mem_toFinset.mp hf)
    obtain ⟨file', sf, m, hfile', hsf, hm, hcp, hsp, hscore'⟩ := exists_mapping h hpair
    rw [hnone.fileWeight, ends, rawAt_edgeScore hfile' hsf, hscore', Option.getD_some]
    exact edgeScore_inexact hscore' fun heq => hno m hm (by rw [hcp, hsp, heq])
  have hedge : fileWeight request.policy (candidateFiles request.candidate) (sourceFiles source)
      (edgeScore U request.policy false) c s = some v := by
    rw [hnone.fileWeight, rawAt_edgeScore hc hs, hv]
  have hle := hheavy.le_add_of_edge (e := (c, s)) hedge (fun f hf _ => hlight f hf)
    (fun f hf _ => hlight f hf)
  have := edgeScore_exact hv hpath
  omega

/-- Without mappings, nothing can be paired. -/
theorem unpairable_of_nil
    (h : assign U request.policy (candidateFiles request.candidate) (sourceFiles source) =
      .ok ⟨pairs, false⟩) (hnil : sourceMappings request source pairs = []) :
    Unpairable U request source := by
  intro file hfile hpad sourceFile hsource
  by_contra hscore
  obtain ⟨c, s, hc, hs⟩ := exists_index hfile hpad hsource
  obtain rfl : pairs = [] := by
    by_contra hne
    obtain ⟨pair, rest, rfl⟩ := List.exists_cons_of_ne_nil hne
    obtain ⟨-, -, m, -, -, hm, -⟩ := exists_mapping h List.mem_cons_self
    rw [hnil] at hm
    cases hm
  have hpos := edgeScore_pos U request.policy false
  have hheavy := (assignWith_ok hpos h).1
  have hedge : fileWeight request.policy (candidateFiles request.candidate) (sourceFiles source)
      (edgeScore U request.policy false) c s ≠ none :=
    pairWeight_of_rawAt length_allEdges (by rw [rawAt_edgeScore hc hs]; exact hscore)
  obtain ⟨v, hv⟩ := Option.ne_none_iff_exists'.mp hedge
  have hle := hheavy.le_add_of_edge (e := (c, s)) (a := 0) (b := 0) hv
    (fun f hf => by simp [edgeSet] at hf) (fun f hf => by simp [edgeSet] at hf)
  have := pairWeight_pos (isGraph_allEdges _ _ _ hpos) _ _ _ hv
  omega

theorem collectEdges_of_unpairable (h : Unpairable U request source) :
    allEdges request.policy (candidateFiles request.candidate) (sourceFiles source)
        (edgeScore U request.policy false) =
      (candidateFiles request.candidate).map fun _ => [] := by
  refine List.map_congr_left fun file hfile => ?_
  rw [candidateEdges, List.filterMap_eq_nil_iff]
  intro s _
  rw [Option.map_eq_none_iff, scoreAt]
  cases hs : (sourceFiles source)[s]? with
  | none => rfl
  | some sf =>
    have hmem := (mem_sourceFiles.mp (List.mem_of_getElem? hs)).2
    obtain ⟨hfile, hpad⟩ := mem_candidateFiles.mp hfile
    exact h file hfile hpad sf.2 hmem

/-- A source that can be compared with the candidate at all, and has nothing to pair, has the empty
assignment. -/
theorem assign_of_unpairable (h : Unpairable U request source)
    (hfiles : (candidateFiles request.candidate).length ≤ request.policy.maxAssignmentFiles)
    (hsources : (sourceFiles source).length ≤
      request.policy.maxAssignmentFiles - (candidateFiles request.candidate).length) :
    assign U request.policy (candidateFiles request.candidate) (sourceFiles source) =
      .ok ⟨[], false⟩ := by
  refine assignWith_ok_iff.mpr ⟨hfiles, hsources, ?_, initialLoop, ?_, rfl⟩
  · rw [collectEdges_of_unpairable h, List.map_map]
    refine (Nat.le_of_eq (List.sum_eq_zero fun n hn => ?_)).trans (Nat.zero_le _)
    obtain ⟨_, _, rfl⟩ := List.mem_map.mp hn
    rfl
  · rw [collectEdges_of_unpairable h, assignEdges]
    generalize List.range (candidateFiles request.candidate).length = l
    induction l with
    | nil => rfl
    | cons start l ih =>
      have hempty : (((candidateFiles request.candidate).map fun _ => ([] : List (ℕ × ℕ))).getD
          start []).isEmpty = true := by
        by_cases hlt : start < (candidateFiles request.candidate).length
        · rw [List.getD_eq_getElem _ _ (by simpa using hlt), List.getElem_map]
          rfl
        · rw [List.getD_eq_default _ _ (by simpa using hlt)]
          rfl
      rw [List.foldlM_cons]
      have hvisit : visit request.policy (candidateFiles request.candidate)
          ((candidateFiles request.candidate).map fun _ => []) (sourceFiles source).length
          initialLoop start = .ok initialLoop := by
        unfold visit
        rw [if_pos (by rw [hempty, Bool.or_true])]
      rw [hvisit]
      exact ih

end

/-! ### The choice -/

/-- The first of the sorted choices is one of the best. -/
theorem first_best {choices rest : List MatchDecision} {first : MatchDecision}
    (h : choices.insertionSort Better = first :: rest) :
    first ∈ choices ∧ ∀ d ∈ choices, quality d ≤ quality first := by
  have hsorted : (choices.insertionSort Better).Pairwise Better := by
    have : Std.Total Better := ⟨fun a b => le_total (quality b) (quality a)⟩
    have : IsTrans MatchDecision Better := ⟨fun a b c hab hbc => le_trans hbc hab⟩
    exact List.pairwise_insertionSort Better choices
  rw [h, List.pairwise_cons] at hsorted
  refine ⟨(List.mem_insertionSort Better).mp (by rw [h]; simp), fun d hd => ?_⟩
  have hmem : d ∈ first :: rest := h ▸ (List.mem_insertionSort Better).mpr hd
  rcases List.mem_cons.mp hmem with rfl | hmem
  · exact le_rfl
  · exact hsorted.1 d hmem

theorem choose_best {choices : List MatchDecision} {d : MatchDecision} (h : choose choices = some d)
    (hd : d.outcome = .matched) : ∀ d' ∈ choices, quality d' ≤ quality d := by
  unfold choose at h
  split at h
  · cases h
  · next first heq => exact Option.some.inj h ▸ (first_best heq).2
  · next first second rest heq =>
    split_ifs at h
    · rw [← Option.some.inj h] at hd
      cases hd
    · exact Option.some.inj h ▸ (first_best heq).2

/-- Decisions that have no mappings if they are as good as `d` make `choose` return one without
mappings. -/
theorem choose_of_nil {choices : List MatchDecision} {d : MatchDecision} (hd : d ∈ choices)
    (hnil : ∀ d' ∈ choices, quality d ≤ quality d' → d'.mappings = []) :
    ∃ d' ∈ choices, choose choices = some d' ∧ d'.mappings = [] := by
  unfold choose
  split
  · next heq =>
    have := (List.mem_insertionSort Better).mpr hd
    rw [heq] at this
    cases this
  · next first heq =>
    obtain ⟨hf, hbest⟩ := first_best heq
    exact ⟨first, hf, rfl, hnil first hf (hbest d hd)⟩
  · next first second rest heq =>
    obtain ⟨hf, hbest⟩ := first_best heq
    have hempty := hnil first hf (hbest d hd)
    refine ⟨first, hf, if_neg fun htie => htie.2 ?_, hempty⟩
    have hsecond : second ∈ choices := (List.mem_insertionSort Better).mp (by rw [heq]; simp)
    rw [hempty, hnil second hsecond (htie.1 ▸ hbest d hd)]

theorem sourceIdsOf_eq_nil {mappings : List FileMapping} :
    sourceIdsOf mappings = [] ↔ mappings = [] := by
  constructor
  · intro h
    have hsort := (List.destutter_eq_nil _).mp h
    have hlen := congrArg List.length hsort
    simpa using hlen
  · rintro rfl
    rfl

theorem quality_decision (mode : MatchMode) (mappings : List FileMapping) (n : ℕ) :
    quality (decision request mode mappings n) =
      toLex (modeRank (some mode),
        toLex ((decision request mode mappings n).evidence.mappedPrimaryBytes,
        toLex (mappings.countP (fun m => m.candidatePath = m.sourcePath),
          toLex (OrderDual.toDual (sourceIdsOf mappings).length,
            toLex ((decision request mode mappings n).evidence.qbitSources, mappings.length))))) :=
  rfl

/-- Without required files, no primary bytes are mapped. -/
theorem NothingRequired.mappedPrimaryBytes (h : NothingRequired request) (mode : MatchMode)
    (mappings : List FileMapping) (n : ℕ) :
    (decision request mode mappings n).evidence.mappedPrimaryBytes = 0 := by
  have : mappings.filter (mappedFile request.candidate.files (Files.primary request.policy)) =
      [] := by
    refine List.filter_eq_nil_iff.mpr fun m _ hp => ?_
    rw [mappedFile, Option.any_eq_true] at hp
    obtain ⟨file, hfind, hp⟩ := hp
    rw [h.primary (List.mem_of_find?_eq_some hfind)] at hp
    cases hp
  simp only [decision, this]
  rfl

/-! ### When a match has no mappings -/

/-- The assignment to one source. -/
abbrev assignSource (U : Unicode) (request : MatchRequest) (source : LocalSourceManifest) :
    Except AssignmentError Assignment :=
  assign U request.policy (candidateFiles request.candidate) (sourceFiles source)

/-- A request whose candidate has no required file, of which nothing is ambiguous, with a source
that has nothing to pair, and with no source that has a file to pair under its own path. -/
structure Vacuous (U : Unicode) (request : MatchRequest) : Prop where
  considered : Considered U request
  nothing : NothingRequired request
  decided : ∀ source, Compared request source → ∀ pairs,
    assignSource U request source ≠ .ok ⟨pairs, true⟩
  seasonDecided : seasonConsidered request = true →
    episodeSources request (availableSources request) ≠ [] → ∀ pairs,
      assignSeason U request.policy (candidateFiles request.candidate)
        (episodeSources request (availableSources request)) ≠ .ok ⟨pairs, true⟩
  unpairable : ∃ source, Compared request source ∧ Unpairable U request source
  inexact : ∀ source, Compared request source → ExactPair U request source →
    assignSource U request source = .error .budgetExceeded

theorem evaluateRelease_ambiguous {source : LocalSourceManifest} :
    evaluateRelease U request source = .ambiguous ↔
      compatible request.candidateRelease source.release false = .ok () ∧
        ∃ pairs, assignSource U request source = .ok ⟨pairs, true⟩ := by
  unfold evaluateRelease assignSource
  cases compatible request.candidateRelease source.release false with
  | error reason => simp
  | ok u =>
    simp only [true_and, evaluateSource]
    cases assign U request.policy (candidateFiles request.candidate) (sourceFiles source) with
    | error e => simp
    | ok a =>
      obtain ⟨pairs, ambiguous⟩ := a
      cases ambiguous with
      | true => simp
      | false =>
        simp only [Bool.false_eq_true, if_false, Except.ok.injEq, Assignment.mk.injEq, and_false,
          exists_false, iff_false]
        split <;> simp

theorem evaluateSeason_ambiguous {sources : List LocalSourceManifest} :
    evaluateSeason U request sources = .ambiguous ↔ episodeSources request sources ≠ [] ∧
      ∃ pairs, assignSeason U request.policy (candidateFiles request.candidate)
        (episodeSources request sources) = .ok ⟨pairs, true⟩ := by
  unfold evaluateSeason
  by_cases hempty : episodeSources request sources = []
  · simp [hempty]
  · rw [if_neg (by simpa using hempty)]
    simp only [ne_eq, hempty, not_false_eq_true, true_and]
    cases assignSeason U request.policy (candidateFiles request.candidate)
        (episodeSources request sources) with
    | error e => simp
    | ok a =>
      obtain ⟨pairs, ambiguous⟩ := a
      cases ambiguous with
      | true => simp
      | false =>
        simp only [Bool.false_eq_true, if_false, Except.ok.injEq, Assignment.mk.injEq, and_false,
          exists_false, iff_false]
        split_ifs <;> simp

theorem compared_iff {source : LocalSourceManifest} : Compared request source ↔
    source ∈ availableSources request ∧
      compatible request.candidateRelease source.release false = .ok () := by
  rw [mem_availableSources, and_assoc]
  exact ⟨fun h => ⟨h.mem, h.available, h.compatible⟩, fun h => ⟨h.1, h.2.1, h.2.2⟩⟩

/-- Nothing is ambiguous if and only if there are choices. -/
theorem collect_ne_none : collect U request ≠ none ↔
    (∀ source, Compared request source → ∀ pairs,
      assignSource U request source ≠ .ok ⟨pairs, true⟩) ∧
      (seasonConsidered request = true →
        episodeSources request (availableSources request) ≠ [] → ∀ pairs,
          assignSeason U request.policy (candidateFiles request.candidate)
            (episodeSources request (availableSources request)) ≠ .ok ⟨pairs, true⟩) := by
  rw [Ne, collect_eq_none]
  simp only [evaluateRelease_ambiguous, evaluateSeason_ambiguous, compared_iff, and_imp]
  push Not
  rfl

/-- With nothing required, the mode for one source is strict. -/
theorem NothingRequired.evaluateSource (h : NothingRequired request) {source : LocalSourceManifest}
    {pairs : List (ℕ × ℕ × ℕ)} (ha : assignSource U request source = .ok ⟨pairs, false⟩) :
    evaluateSource U request source =
      .decision (decision request .strict (sourceMappings request source pairs) 1) := by
  have hfilter : (candidateFiles request.candidate).filter (required request.policy) = [] :=
    List.filter_eq_nil_iff.mpr fun file hfile hreq => by
      rw [h file (mem_candidateFiles.mp hfile).1] at hreq
      cases hreq
  unfold Evaluate.evaluateSource
  simp only
  rw [show assign U request.policy (candidateFiles request.candidate) (sourceFiles source) = _ from
    ha]
  simp [sourceMode, hfilter]

/-- With nothing required, there is no decision about the season. -/
theorem NothingRequired.evaluateSeason (h : NothingRequired request)
    (sources : List LocalSourceManifest) (d : MatchDecision) :
    evaluateSeason U request sources ≠ .decision d := by
  intro hd
  obtain ⟨pairs, -, hany, -⟩ := evaluateSeason_decision hd
  obtain ⟨m, -, hp⟩ := List.any_eq_true.mp hany
  obtain ⟨file, hfile, -, hp⟩ := mappedFile_candidateFiles hp
  rw [h.primary hfile] at hp
  cases hp

/-- The sources of a request that is evaluated are within the file limit. -/
theorem files_le_of_considered (h : Considered U request) {source : LocalSourceManifest}
    (hs : Compared request source) :
    (candidateFiles request.candidate).length ≤ request.policy.maxAssignmentFiles ∧
      (sourceFiles source).length ≤
        request.policy.maxAssignmentFiles - (candidateFiles request.candidate).length := by
  have hcount : (candidateFiles request.candidate).length =
      request.candidate.files.countP fun file => !file.padding := by
    rw [candidateFiles, List.length_insertionSort, List.countP_eq_length_filter]
  have hbudget := h.budget
  unfold inputBudgetExceeded at hbudget
  simp only at hbudget
  split_ifs at hbudget with hmany
  have hfit := (foldlM_addSourceFiles request _ _ _ le_rfl).not.mp (by rw [hbudget]; simp)
  have hmem : source ∈ request.sources.filter LocalSourceManifest.available :=
    List.mem_filter.mpr ⟨hs.mem, hs.available⟩
  have hle : source.files.length ≤ ((request.sources.filter LocalSourceManifest.available).map
      fun source => source.files.length).sum :=
    List.single_le_sum (fun _ _ => Nat.zero_le _) _ (List.mem_map_of_mem hmem)
  have hsum : ¬(request.candidate.files.countP (fun file => !file.padding) +
      ((request.sources.filter LocalSourceManifest.available).map
        fun source => source.files.length).sum > request.policy.maxAssignmentFiles) :=
    fun hgt => hfit ⟨List.ne_nil_of_mem hmem, hgt⟩
  rw [hcount, sourceFiles, List.length_map]
  omega

/-- A match without mappings comes from a request of the kind described. -/
theorem vacuous_of_nil (hmatched : (evaluate U request).outcome = .matched)
    (hnil : (evaluate U request).mappings = []) : Vacuous U request := by
  obtain ⟨hconsidered, acc, hcollect, hchoose⟩ := evaluate_matched hmatched
  obtain ⟨hdecided, hseason⟩ := collect_ne_none.mp (by rw [hcollect]; simp)
  rcases evaluate_matched_source hmatched with ⟨source, hmem, havailable, hcompatible, he⟩ | ⟨-, he⟩
  · have hcompared : Compared request source := ⟨hmem, havailable, hcompatible⟩
    obtain ⟨pairs, mode, ha, hmode, hd⟩ := evaluateSource_decision he
    have hmaps : buildMappings (candidateFiles request.candidate) (sourceFiles source)
        ⟨pairs, false⟩ = [] := by rw [hd] at hnil; exact hnil
    obtain ⟨hne, hsound⟩ := sourceMode_sound (U := U) hmode
    rw [hmaps] at hsound
    have hnothing : NothingRequired request := by
      intro file hfile
      by_contra hreq
      cases mode with
      | strict =>
        obtain ⟨m, hm, -⟩ := hsound file hfile (by simpa using hreq)
        cases hm
      | flexible =>
        obtain ⟨m, hm, -⟩ := hsound.1 file hfile (by simpa using hreq)
        cases hm
      | partialMatch =>
        obtain ⟨-, m, hm, -⟩ := hsound
        cases hm
      | seasonFromEpisodes => exact hne rfl
    refine ⟨hconsidered, hnothing, hdecided, hseason,
      ⟨source, hcompared, unpairable_of_nil ha hmaps⟩, fun source' hcompared' hexact => ?_⟩
    cases ha' : assignSource U request source' with
    | error e => cases e; rfl
    | ok a =>
      -- the other source would give a better decision
      exfalso
      obtain ⟨pairs', ambiguous⟩ := a
      cases ambiguous with
      | true => exact hdecided source' hcompared' pairs' ha'
      | false =>
        obtain ⟨m, hm, hpath⟩ := exists_exact_mapping hnothing ha' hexact
        have hcount : 0 < (sourceMappings request source' pairs').countP
            fun m => m.candidatePath = m.sourcePath :=
          List.countP_pos_iff.mpr ⟨m, hm, by simpa using hpath⟩
        have hbest := choose_best hchoose hmatched _ ((mem_collect hcollect _).mpr (.inl ⟨source',
          (compared_iff.mp hcompared').1, evaluateRelease_decision.mpr ⟨hcompared'.compatible,
            hnothing.evaluateSource ha'⟩⟩))
        have hrank : modeRank (some mode) ≤ modeRank (some .strict) := by
          cases mode <;> simp [modeRank]
        rw [hd, quality_decision, quality_decision, Prod.Lex.toLex_le_toLex,
          Prod.Lex.toLex_le_toLex, Prod.Lex.toLex_le_toLex, hnothing.mappedPrimaryBytes,
          hnothing.mappedPrimaryBytes, hmaps] at hbest
        simp only [List.countP_nil] at hbest
        omega
  · obtain ⟨pairs, -, hany, n, hd⟩ := evaluateSeason_decision he
    rw [hd] at hnil
    rw [show buildMappings (candidateFiles request.candidate)
      (episodeSources request (availableSources request)) ⟨pairs, false⟩ = [] from hnil] at hany
    cases hany

/-- A request of the kind described gives a match without mappings. -/
theorem Vacuous.evaluate (h : Vacuous U request) :
    (evaluate U request).outcome = .matched ∧ (evaluate U request).mappings = [] := by
  obtain ⟨acc, hcollect⟩ : ∃ acc, collect U request = some acc :=
    Option.ne_none_iff_exists'.mp (collect_ne_none.mpr ⟨h.decided, h.seasonDecided⟩)
  have hchoices : ∀ d ∈ acc.choices, ∃ source pairs, Compared request source ∧
      assignSource U request source = .ok ⟨pairs, false⟩ ∧
      d = decision request .strict (sourceMappings request source pairs) 1 := by
    intro d hd
    rcases (mem_collect hcollect d).mp hd with ⟨source, hmem, he⟩ | ⟨-, he⟩
    · obtain ⟨hcompatible, he⟩ := evaluateRelease_decision.mp he
      obtain ⟨pairs, mode, ha, -, -⟩ := evaluateSource_decision he
      rw [h.nothing.evaluateSource ha] at he
      exact ⟨source, pairs, compared_iff.mpr ⟨hmem, hcompatible⟩, ha,
        (SourceEvaluation.decision.inj he).symm⟩
    · exact absurd he (h.nothing.evaluateSeason _ d)
  obtain ⟨source, hcompared, hunpairable⟩ := h.unpairable
  obtain ⟨hle, hle'⟩ := files_le_of_considered h.considered hcompared
  have hempty := assign_of_unpairable hunpairable hle hle'
  have hd : decision request .strict [] 1 ∈ acc.choices :=
    (mem_collect hcollect _).mpr (.inl ⟨source, (compared_iff.mp hcompared).1,
      evaluateRelease_decision.mpr ⟨hcompared.compatible, h.nothing.evaluateSource hempty⟩⟩)
  obtain ⟨d, hmem, hchoose, hmaps⟩ := choose_of_nil hd fun d' hd' hle => by
    obtain ⟨source', pairs, hcompared', ha, rfl⟩ := hchoices d' hd'
    have hinexact : (sourceMappings request source' pairs).countP
        (fun m => m.candidatePath = m.sourcePath) = 0 := by
      rw [List.countP_eq_zero]
      intro m hm hpath
      obtain ⟨file, sf, hfile, hsf, -, hcp, -, -, -, hsp, hscore⟩ := mapping_score ha hm
      obtain ⟨hfile, hpad⟩ := mem_candidateFiles.mp hfile
      have := h.inexact source' hcompared' ⟨file, hfile, hpad, sf.2, (mem_sourceFiles.mp hsf).2,
        by rw [← hcp, ← hsp]; simpa using hpath, by rw [hscore]; simp⟩
      rw [ha] at this
      cases this
    rw [quality_decision, quality_decision, Prod.Lex.toLex_le_toLex, Prod.Lex.toLex_le_toLex,
      Prod.Lex.toLex_le_toLex, Prod.Lex.toLex_le_toLex, h.nothing.mappedPrimaryBytes,
      h.nothing.mappedPrimaryBytes, hinexact] at hle
    simp only [lt_self_iff_false, List.countP_nil, true_and, false_or, OrderDual.toDual_lt_toDual,
      OrderDual.toDual_inj] at hle
    have hzero : (sourceIdsOf (sourceMappings request source' pairs)).length = 0 := by
      have : (sourceIdsOf ([] : List FileMapping)).length = 0 := rfl
      omega
    exact sourceIdsOf_eq_nil.mp (List.length_eq_zero_iff.mp hzero)
  have heq : Evaluate.evaluate U request = d := by
    unfold Evaluate.evaluate
    simp [h.considered.valid, h.considered.absent, h.considered.budget, hcollect, hchoose]
  obtain ⟨_, _, -, -, rfl⟩ := hchoices d hmem
  exact ⟨by rw [heq]; rfl, by rw [heq]; exact hmaps⟩

/-- **A match links something** unless the request is of the kind described. -/
theorem evaluate_links_iff (U : Unicode) (request : MatchRequest) :
    ((evaluate U request).outcome = .matched →
      (evaluate U request).mappings ≠ [] ∧ (evaluate U request).sourceIds ≠ []) ↔
      ¬Vacuous U request := by
  constructor
  · intro h hvacuous
    obtain ⟨hmatched, hnil⟩ := hvacuous.evaluate
    exact (h hmatched).1 hnil
  · intro h hmatched
    have hmaps : (evaluate U request).mappings ≠ [] := fun hnil => h (vacuous_of_nil hmatched hnil)
    refine ⟨hmaps, fun hids => hmaps ?_⟩
    have hsame : (evaluate U request).sourceIds = sourceIdsOf (evaluate U request).mappings := by
      rcases evaluate_matched_source hmatched with ⟨source, -, -, -, he⟩ | ⟨-, he⟩
      · obtain ⟨pairs, mode, -, -, hd⟩ := evaluateSource_decision he
        rw [hd]
        rfl
      · obtain ⟨pairs, -, -, n, hd⟩ := evaluateSeason_decision he
        rw [hd]
        rfl
    rw [hsame] at hids
    exact sourceIdsOf_eq_nil.mp hids

/-- A candidate of subtitles only, and a film that shares nothing with it. -/
def subtitleRequest : MatchRequest :=
  requestOf "Film.2020" [("Film.2020.srt", 3)] [sourceOf 1 "Film.2020" [("f.mkv", 10)]]

theorem evaluate_subtitleRequest :
    (evaluate Unicode.ascii subtitleRequest).outcome = .matched ∧
      (evaluate Unicode.ascii subtitleRequest).mappings = [] ∧
      (evaluate Unicode.ascii subtitleRequest).sourceIds = [] := by decide +kernel

end Sporos.Matcher.Unlinked

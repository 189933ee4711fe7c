import Sporos.Matcher.Objective

/-! # Perfect copies

A source whose files are the files of the candidate is matched strictly, each required file with the
file of its own path. Sizes, names and episode numbers may repeat, so that there can be many other
matchings, but an edge between files of one path scores more than nine times what any other edge
scores, and what a candidate adds to the weight of its edges is the same for all of them. The edges
between files of one path therefore stand out (`standsOut_twinEdges`): no other matching weighs as
much.

A file that is optional, with a path like that of a primary file, has no edge to the file of its own
path. It is not required, and each of its other edges leads to a file that has one. -/

namespace Sporos.Matcher.PerfectCopy

open Sporos.Model.Matching
open Sporos.Matcher.Release
open Sporos.Matcher.Files
open Sporos.Matcher.Assign
open Sporos.Matcher.Heaviest
open Sporos.Matcher.Evaluate
open Sporos.Matcher.Invariance
open Sporos.Matcher.Soundness
open Sporos.Matcher.Unlinked
open Sporos.Matcher.Objective
open Sporos.Lib.Assignment

variable {U : Unicode} {policy : MatchingPolicy}

/-! ### Edges between files of one path -/

/-- Two files of one path and size have an edge unless the candidate is optional with a primary
path. -/
theorem edgeScore_twin {file : TorrentFile} {source : LocalSourceFile}
    (hpath : file.path = source.path) (hsize : file.size = source.size) :
    edgeScore U policy false file source ≠ none
      ↔ primary policy file = primaryPath policy source.path := by
  have hagree : (episodeKeys U source.path).isEmpty = false →
      episodeAgreement U source.path source.path = true := by
    intro hsome
    obtain ⟨key, hkey⟩ := List.exists_mem_of_ne_nil _ (by simpa using hsome)
    exact List.any_eq_true.mpr ⟨key, hkey, by simpa using hkey⟩
  unfold edgeScore
  rw [if_neg (by simpa using hsize), hpath]
  by_cases hprimary : primary policy file = primaryPath policy source.path
  · rw [if_neg (by simpa using hprimary), if_neg (by simp), if_neg, if_neg (by simp)]
    · simp [hprimary]
    · simp only [Bool.and_self, Bool.and_eq_true, Bool.not_eq_true', not_and, Bool.not_eq_false]
      exact hagree
  · rw [if_pos hprimary]
    simp [hprimary]

theorem primary_of_required {file : TorrentFile} (h : required policy file = true) :
    primary policy file = primaryPath policy file.path := by
  rw [primary, show (!file.padding && !optional policy file.path) = true from h, Bool.true_and]

theorem primaryPath_of_primary {file : TorrentFile} (h : primary policy file = true) :
    primaryPath policy file.path = true := (Bool.and_eq_true _ _ ▸ h).2

/-! ### The edges stand out -/

/-- Each file of either list has a twin in the other one: a file of its path and size. -/
structure Twins (candidates : List TorrentFile) (sources : List SourceFile) : Prop where
  candidatePaths : (candidates.map TorrentFile.path).Nodup
  sourcePaths : (sources.map fun source => source.2.path).Nodup
  ofCandidate : ∀ file ∈ candidates, ∃ source ∈ sources,
    file.path = source.2.path ∧ file.size = source.2.size
  ofSource : ∀ source ∈ sources, ∃ file ∈ candidates,
    file.path = source.2.path ∧ file.size = source.2.size

section

variable (U) (policy) (candidates : List TorrentFile) (sources : List SourceFile)

/-- The edges between files of one path. -/
def twinEdges : Finset (ℕ × ℕ) :=
  (Finset.range candidates.length ×ˢ Finset.range sources.length).filter fun e =>
    (candidates[e.1]?).map TorrentFile.path = (sources[e.2]?).map (fun source => source.2.path) ∧
      scoreGraph U policy false candidates sources e.1 e.2 ≠ none

/-- What a candidate adds to the weight of all of its edges. -/
def baseWeight (c : ℕ) : ℕ :=
  primarySize policy candidates c * scoreUnit (edgesOf U policy false candidates sources)
    + (if (candidates[c]?).any (required policy) then 1 else 0)
      * requiredUnit policy candidates (edgesOf U policy false candidates sources)

end

variable {candidates : List TorrentFile} {sources : List SourceFile}

theorem scoreGraph_eq {c s : ℕ} {file : TorrentFile} {source : SourceFile}
    (hc : candidates[c]? = some file) (hs : sources[s]? = some source) :
    scoreGraph U policy false candidates sources c s = edgeScore U policy false file source.2 := by
  rw [scoreGraph, hc, Option.bind_some, hs, Option.bind_some]

theorem scoreGraph_ne_none {c s : ℕ} (h : scoreGraph U policy false candidates sources c s ≠ none) :
    ∃ file source, candidates[c]? = some file ∧ sources[s]? = some source ∧
      edgeScore U policy false file source.2 ≠ none := by
  obtain ⟨v, hv⟩ := Option.ne_none_iff_exists'.mp h
  obtain ⟨file, hc, hv⟩ := Option.bind_eq_some_iff.mp hv
  obtain ⟨source, hs, hv⟩ := Option.bind_eq_some_iff.mp hv
  exact ⟨file, source, hc, hs, by rw [hv]; simp⟩

theorem mem_twinEdges {e : ℕ × ℕ} : e ∈ twinEdges U policy candidates sources ↔
    ∃ file source, candidates[e.1]? = some file ∧ sources[e.2]? = some source ∧
      file.path = source.2.path ∧ edgeScore U policy false file source.2 ≠ none := by
  simp only [twinEdges, Finset.mem_filter, Finset.mem_product, Finset.mem_range]
  constructor
  · rintro ⟨-, hpath, hscore⟩
    obtain ⟨file, source, hc, hs, hscore⟩ := scoreGraph_ne_none hscore
    rw [hc, hs, Option.map_some, Option.map_some, Option.some.injEq] at hpath
    exact ⟨file, source, hc, hs, hpath, hscore⟩
  · rintro ⟨file, source, hc, hs, hpath, hscore⟩
    refine ⟨⟨(List.getElem?_eq_some_iff.mp hc).1, (List.getElem?_eq_some_iff.mp hs).1⟩, ?_, ?_⟩
    · rw [hc, hs, Option.map_some, Option.map_some, hpath]
    · rw [scoreGraph_eq hc hs]
      exact hscore

/-- The edge of a candidate to its twin, unless the candidate is optional with a primary path. -/
theorem Twins.exists_of_candidate (h : Twins candidates sources) {c : ℕ} {file : TorrentFile}
    (hc : candidates[c]? = some file)
    (hprimary : primary policy file = primaryPath policy file.path) :
    ∃ f ∈ twinEdges U policy candidates sources, f.1 = c := by
  obtain ⟨source, hmem, hpath, hsize⟩ := h.ofCandidate file (List.mem_of_getElem? hc)
  obtain ⟨s, hs⟩ := List.mem_iff_getElem?.mp hmem
  refine ⟨(c, s), mem_twinEdges.mpr ⟨file, source, hc, hs, hpath, ?_⟩, rfl⟩
  exact (edgeScore_twin hpath hsize).mpr (by rw [hprimary, hpath])

/-- An edge leads to a file that has an edge to its twin, on one side at least. -/
theorem Twins.touches (h : Twins candidates sources) {e : ℕ × ℕ}
    (he : scoreGraph U policy false candidates sources e.1 e.2 ≠ none) :
    ∃ f ∈ twinEdges U policy candidates sources, f.1 = e.1 ∨ f.2 = e.2 := by
  obtain ⟨file, source, hc, hs, hscore⟩ := scoreGraph_ne_none he
  obtain ⟨twin, hmem, hpath, hsize⟩ := h.ofSource source (List.mem_of_getElem? hs)
  obtain ⟨c, htwin⟩ := List.mem_iff_getElem?.mp hmem
  by_cases hprimary : primary policy twin = primaryPath policy source.2.path
  · exact ⟨(c, e.2), mem_twinEdges.mpr ⟨twin, source, htwin, hs, hpath,
      (edgeScore_twin hpath hsize).mpr hprimary⟩, .inr rfl⟩
  · -- the path of the source is primary, so the candidate of the edge is
    obtain ⟨v, hv⟩ := Option.ne_none_iff_exists'.mp hscore
    have hsame := (edgeScore_eq_some hv).2.1
    have hpathPrimary : primaryPath policy source.2.path = true := by
      by_contra hnot
      refine hprimary ?_
      rw [primary, hpath, Bool.eq_false_of_not_eq_true hnot, Bool.and_false]
    rw [hpathPrimary] at hsame
    obtain ⟨f, hf, hrow⟩ :=
      h.exists_of_candidate (U := U) hc (by rw [hsame, primaryPath_of_primary hsame])
    exact ⟨f, hf, .inl hrow⟩

/-- **The edges between files of one path stand out.** -/
theorem standsOut_twinEdges (h : Twins candidates sources) :
    StandsOut (fileWeight policy candidates sources (edgeScore U policy false))
      (baseWeight U policy candidates sources) 111111 (twinEdges U policy candidates sources) := by
  have hweight : ∀ {e : ℕ × ℕ}, scoreGraph U policy false candidates sources e.1 e.2 ≠ none →
      (fileWeight policy candidates sources (edgeScore U policy false) e.1 e.2).getD 0 =
        (scoreGraph U policy false candidates sources e.1 e.2).getD 0
          + baseWeight U policy candidates sources e.1 := fun {e} he => by
    rw [fileWeight_getD ((fileWeight_ne_none_iff _ _).mpr he), baseWeight, Nat.add_assoc]
  refine ⟨⟨fun e he => ?_, fun e he f hf hrow => ?_, fun e he f hf hcolumn => ?_⟩, fun e he => ?_,
    fun e he => ?_, fun e he => h.touches ((fileWeight_ne_none_iff _ _).mp he),
    fun e he hbase => ?_⟩
  · obtain ⟨file, source, hc, hs, -, hscore⟩ := mem_twinEdges.mp he
    rw [fileWeight_ne_none_iff, scoreGraph_eq hc hs]
    exact hscore
  · obtain ⟨file, source, hc, hs, hpath, -⟩ := mem_twinEdges.mp he
    obtain ⟨file', source', hc', hs', hpath', -⟩ := mem_twinEdges.mp hf
    rw [← hrow, hc, Option.some.injEq] at hc'
    refine Prod.ext hrow
      ((List.getElem?_inj (List.getElem?_eq_some_iff.mp hs).1 h.sourcePaths.of_map).mp ?_)
    rw [hs, hs', Option.some.injEq]
    exact List.inj_on_of_nodup_map h.sourcePaths (List.mem_of_getElem? hs)
      (List.mem_of_getElem? hs')
      (by rw [← hpath, ← hpath', hc'])
  · obtain ⟨file, source, hc, hs, hpath, -⟩ := mem_twinEdges.mp he
    obtain ⟨file', source', hc', hs', hpath', -⟩ := mem_twinEdges.mp hf
    rw [← hcolumn, hs, Option.some.injEq] at hs'
    refine Prod.ext ((List.getElem?_inj (List.getElem?_eq_some_iff.mp hc).1
      h.candidatePaths.of_map).mp ?_)
      hcolumn
    rw [hc, hc', Option.some.injEq]
    exact List.inj_on_of_nodup_map h.candidatePaths (List.mem_of_getElem? hc)
      (List.mem_of_getElem? hc')
      (by rw [hpath, hpath', hs'])
  · obtain ⟨file, source, hc, hs, hpath, hscore⟩ := mem_twinEdges.mp he
    obtain ⟨v, hv⟩ := Option.ne_none_iff_exists'.mp hscore
    rw [hweight (by rw [scoreGraph_eq hc hs]; exact hscore), scoreGraph_eq hc hs, hv,
      Option.getD_some]
    have := edgeScore_exact hv hpath
    omega
  · by_cases hnone : scoreGraph U policy false candidates sources e.1 e.2 = none
    · have : fileWeight policy candidates sources (edgeScore U policy false) e.1 e.2 = none := by
        by_contra hne
        exact (fileWeight_ne_none_iff _ _).mp hne hnone
      rw [this]
      exact Nat.zero_le _
    · obtain ⟨file, source, hc, hs, hscore⟩ := scoreGraph_ne_none hnone
      obtain ⟨v, hv⟩ := Option.ne_none_iff_exists'.mp hscore
      rw [hweight hnone, scoreGraph_eq hc hs, hv, Option.getD_some]
      have := edgeScore_inexact hv fun hpath =>
        he (mem_twinEdges.mpr ⟨file, source, hc, hs, hpath, hscore⟩)
      omega
  · obtain ⟨file, -, hc, -⟩ := scoreGraph_ne_none ((fileWeight_ne_none_iff _ _).mp he)
    refine h.exists_of_candidate hc (primary_of_required ?_)
    by_contra hnot
    have hprimary : primary policy file = false := by
      by_contra hp
      exact hnot (required_of_primary policy (by simpa using hp))
    refine hbase ?_
    simp [baseWeight, primarySize, hc, hprimary, hnot]

/-- **The assignment of twins** is not ambiguous, and pairs each file with its twin. -/
theorem assign_twins (h : Twins candidates sources) {a : Assignment}
    (ha : assign U policy candidates sources = .ok a) :
    a.ambiguous = false ∧ edgeSet a.pairs = twinEdges U policy candidates sources := by
  have hunique := (@standsOut_twinEdges U policy _ _ h).isUniqueHeaviest
  have hpos := edgeScore_pos U policy false
  obtain ⟨pairs, ambiguous⟩ := a
  cases ambiguous with
  | false => exact ⟨rfl, hunique.eq _ (assignWith_ok hpos ha).1.toIsHeaviest⟩
  | true =>
    obtain ⟨M, N, hM, hN, hne⟩ :=
      assignEdges_ambiguous (isGraph_allEdges policy candidates sources hpos)
        (assignWith_ambiguous ha)
    exact absurd ((hunique.eq M hM).trans (hunique.eq N hN).symm) hne

/-! ### The decision -/

section

variable {request : MatchRequest} {source : LocalSourceManifest}

/-- The files of the source are the files of the candidate, padding apart, in some order. -/
def SameFiles (request : MatchRequest) (source : LocalSourceManifest) : Prop :=
  (source.files.map fun file => (file.path, file.size)).Perm
    ((request.candidate.files.filter fun file => !file.padding).map fun file =>
      (file.path, file.size))

instance : Decidable (SameFiles request source) := by unfold SameFiles; infer_instance

/-- A request with one available source, which is a copy of the candidate. The paths are distinct
because the manifest is valid. -/
structure Copied (U : Unicode) (request : MatchRequest) (source : LocalSourceManifest) : Prop where
  valid : validateManifest U request.candidate = none
  only : request.sources.filter LocalSourceManifest.available = [source]
  absent : sharesHash request = false
  compatible : compatible request.candidateRelease source.release false = .ok ()
  files : SameFiles request source

/-- No budget is exceeded: not by the number of files, and not by the edges, the files of a
component or the operations of the assignment. -/
structure WithinBudgets (U : Unicode) (request : MatchRequest)
    (source : LocalSourceManifest) : Prop where
  files : inputBudgetExceeded request = false
  assignment : assignSource U request source ≠ .error .budgetExceeded

theorem Copied.availableSources (h : Copied U request source) :
    availableSources request = [source] := by
  rw [Evaluate.availableSources, h.only]
  rfl

theorem Copied.twins (h : Copied U request source) :
    Twins (candidateFiles request.candidate) (sourceFiles source) := by
  have hpaths : (request.candidate.files.map TorrentFile.path).Nodup := by
    have := (validateManifest_eq_none.mp h.valid).2.2.paths
    rw [show (fun file : TorrentFile => U.nfc file.path) = U.nfc ∘ TorrentFile.path from rfl,
      ← List.map_map] at this
    exact this.of_map
  have hperm : (candidateFiles request.candidate).Perm
      (request.candidate.files.filter fun file => !file.padding) := List.perm_insertionSort _ _
  have hcandidates : ((candidateFiles request.candidate).map TorrentFile.path).Nodup :=
    (hperm.map _).nodup_iff.mpr (hpaths.sublist (List.filter_sublist.map _))
  have hsame : ((sourceFiles source).map fun sf => (sf.2.path, sf.2.size)).Perm
      ((candidateFiles request.candidate).map fun file => (file.path, file.size)) := by
    rw [sourceFiles, List.map_map]
    exact h.files.trans (hperm.map _).symm
  refine ⟨hcandidates, ?_, fun file hfile => ?_, fun sf hsf => ?_⟩
  · have hfirst := hsame.map Prod.fst
    rw [List.map_map, List.map_map] at hfirst
    exact hfirst.nodup_iff.mpr hcandidates
  · obtain ⟨sf, hsf, heq⟩ := List.mem_map.mp (hsame.mem_iff.mpr (List.mem_map_of_mem hfile))
    rw [Prod.mk.injEq] at heq
    exact ⟨sf, hsf, heq.1.symm, heq.2.symm⟩
  · obtain ⟨file, hfile, heq⟩ := List.mem_map.mp (hsame.mem_iff.mp (List.mem_map_of_mem hsf))
    rw [Prod.mk.injEq] at heq
    exact ⟨file, hfile, heq⟩

/-- A season pack that fits the release of a source is not assembled from that source. -/
theorem Copied.episodeSources (h : Copied U request source)
    (hseason : seasonConsidered request = true) : episodeSources request [source] = [] := by
  have hkind : request.candidateRelease.kind = .seasonPack := by
    simp only [seasonConsidered, Bool.and_eq_true, decide_eq_true_eq] at hseason
    exact hseason.2
  have hnot : isEpisodeSource request source = false := by
    by_contra hepisode
    simp only [isEpisodeSource, Bool.not_eq_false, Bool.and_eq_true, decide_eq_true_eq] at hepisode
    have := (fits_of_compatible h.compatible).kinds
    rw [hkind, hepisode.1.2] at this
    simp at this
  rw [Evaluate.episodeSources, List.filter_cons_of_neg (by simp [hnot])]
  rfl

/-- The pairs of a copy lead to mappings within one path, one of them for each required file. -/
theorem Copied.mappings (h : Copied U request source) {pairs : List (ℕ × ℕ × ℕ)}
    (ha : assignSource U request source = .ok ⟨pairs, false⟩) :
    (∀ m ∈ sourceMappings request source pairs, m.candidatePath = m.sourcePath) ∧
      ∀ file ∈ request.candidate.files, required request.policy file = true →
        ∃ m ∈ sourceMappings request source pairs, ∃ sourceFile ∈ source.files,
          sourceFile.path = file.path ∧ m.candidateOrdinal = file.ordinal
            ∧ m.candidatePath = file.path ∧
            m.sourceId = source.id ∧ m.sourceFileId = sourceFile.id ∧ m.sourcePath = file.path := by
  have hedges := (assign_twins h.twins ha).2
  have hpair : ∀ pair, pair ∈ pairs → ends pair ∈ twinEdges U request.policy
      (candidateFiles request.candidate) (sourceFiles source) := fun pair hpair => by
    rw [← hedges]
    exact List.mem_toFinset.mpr (List.mem_map_of_mem hpair)
  constructor
  · intro m hm
    obtain ⟨pair, hmem, hm⟩ := mem_buildMappings.mp hm
    obtain ⟨file, sf, hfile, hsf, rfl⟩ := buildMapping_eq_some.mp hm
    obtain ⟨file', sf', hfile', hsf', hpath, -⟩ := mem_twinEdges.mp (hpair pair hmem)
    rw [ends, hfile, Option.some.injEq] at hfile'
    rw [ends, hsf, Option.some.injEq] at hsf'
    simp only [hfile', hsf', hpath]
  · intro file hfile hrequired
    have hpad : file.padding = false := by
      simp only [required, Bool.and_eq_true, Bool.not_eq_true'] at hrequired
      exact hrequired.1
    obtain ⟨c, hc⟩ := List.mem_iff_getElem?.mp (mem_candidateFiles.mpr ⟨hfile, hpad⟩)
    obtain ⟨e, he, rfl⟩ := h.twins.exists_of_candidate (U := U) hc (primary_of_required hrequired)
    obtain ⟨file', sf, hfile', hsf, hpath, -⟩ := mem_twinEdges.mp he
    obtain rfl : file = file' := by rw [hc] at hfile'; exact Option.some.inj hfile'
    rw [← hedges] at he
    obtain ⟨pair, hmem, rfl⟩ := List.mem_map.mp (List.mem_toFinset.mp he)
    obtain ⟨hid, hmemSource⟩ := mem_sourceFiles.mp (List.mem_of_getElem? hsf)
    exact ⟨_, mem_buildMappings.mpr ⟨pair, hmem, buildMapping_eq_some.mpr ⟨file, sf, hc, hsf, rfl⟩⟩,
      sf.2, hmemSource, hpath.symm, rfl, rfl, hid, rfl, hpath.symm⟩

/-- **A perfect copy matches strictly**: every required file is mapped to the source file of its own
path, and nothing is mapped across paths. -/
theorem evaluate_copied (h : Copied U request source) (hbudgets : WithinBudgets U request source) :
    (evaluate U request).outcome = .matched ∧ (evaluate U request).mode = some .strict ∧
      (evaluate U request).reason = .matchStrict ∧
      (∀ file ∈ request.candidate.files, required request.policy file = true →
        ∃ m ∈ (evaluate U request).mappings, ∃ sourceFile ∈ source.files,
          sourceFile.path = file.path ∧ m.candidateOrdinal = file.ordinal
            ∧ m.candidatePath = file.path ∧
            m.sourceId = source.id ∧ m.sourceFileId = sourceFile.id ∧ m.sourcePath = file.path) ∧
      ∀ m ∈ (evaluate U request).mappings, m.candidatePath = m.sourcePath := by
  obtain ⟨pairs, ha⟩ : ∃ pairs, assignSource U request source = .ok ⟨pairs, false⟩ := by
    cases ha : assignSource U request source with
    | error e => cases e; exact absurd ha hbudgets.assignment
    | ok a => exact ⟨a.pairs, by rw [← (assign_twins h.twins ha).1]⟩
  obtain ⟨hpaths, hrequired⟩ := h.mappings ha
  have hmode : sourceMode request.policy (candidateFiles request.candidate)
      (sourceMappings request source pairs) = some .strict := by
    unfold sourceMode
    refine if_pos ?_
    simp only [Bool.and_eq_true, List.all_eq_true, List.mem_filter,
      List.contains_iff_mem, List.mem_map, List.any_eq_true, decide_eq_true_eq, and_imp]
    constructor
    all_goals
      intro file hfile hreq
      obtain ⟨m, hm, -, -, -, hordinal, -⟩ := hrequired file (mem_candidateFiles.mp hfile).1 hreq
    · exact ⟨m, hm, hordinal⟩
    · exact ⟨m, hm, hordinal, hpaths m hm⟩
  have hsource : evaluateSource U request source =
      .decision (decision request .strict (sourceMappings request source pairs) 1) := by
    unfold evaluateSource
    simp only
    rw [show assign U request.policy (candidateFiles request.candidate)
      (sourceFiles source) = _ from ha]
    simp only [Bool.false_eq_true, if_false, hmode]
  have hcollect : ∃ conflicts, collect U request =
      some ⟨[decision request .strict (sourceMappings request source pairs) 1], conflicts⟩ := by
    have hrelease := evaluateRelease_decision.mpr ⟨h.compatible, hsource⟩
    rw [collect, h.availableSources]
    simp only [List.foldlM_cons, List.foldlM_nil, collectSource, hrelease, Collected.add,
      List.nil_append, Option.bind_eq_bind, Option.bind_some, Option.pure_def, collectSeason]
    by_cases hseason : seasonConsidered request = true
    · rw [if_pos hseason, evaluateSeason, h.episodeSources hseason]
      exact ⟨_, rfl⟩
    · rw [if_neg hseason]
      exact ⟨_, rfl⟩
  obtain ⟨conflicts, hcollect⟩ := hcollect
  have heval : evaluate U request =
      decision request .strict (sourceMappings request source pairs) 1 := by
    unfold evaluate
    simp only [h.valid, h.absent, hbudgets.files, hcollect, Bool.false_eq_true, if_false]
    rfl
  rw [heval]
  exact ⟨rfl, rfl, rfl, hrequired, hpaths⟩

end

/-- A film in two parts of one name and size, with a sample that has no edge to its copy. -/
def partsFiles : List (String × ℕ) :=
  [("a/film.mkv", 10), ("b/film.mkv", 10), ("sample/film.mkv", 10)]

/-- The copy lists the files the other way round. -/
def partsSource : LocalSourceManifest := sourceOf 1 "Film.2020" partsFiles.reverse

/-- The parts of a film, with a copy of them. -/
def partsRequest : MatchRequest := requestOf "Film.2020" partsFiles [partsSource]

theorem evaluate_copied_parts :
    (Copied Unicode.ascii partsRequest partsSource
      ∧ WithinBudgets Unicode.ascii partsRequest partsSource) ∧
    (evaluate Unicode.ascii partsRequest).mode = some .strict ∧
    (evaluate Unicode.ascii partsRequest).mappings.map (fun m =>
      (m.candidateOrdinal, m.sourceFileId)) =
      [(0, 2), (1, 1)] := by
  have hassign : assignSource Unicode.ascii partsRequest partsSource =
      .ok ⟨[(0, 2, 1101111), (1, 1, 1101111)], false⟩ := by decide +kernel
  have hcopied : Copied Unicode.ascii partsRequest partsSource :=
    ⟨by decide +kernel, by decide +kernel, by decide +kernel, by decide +kernel, by decide +kernel⟩
  have hbudgets : WithinBudgets Unicode.ascii partsRequest partsSource :=
    ⟨by decide +kernel, by rw [hassign]; simp⟩
  exact ⟨⟨hcopied, hbudgets⟩, (evaluate_copied hcopied hbudgets).2.1, by decide +kernel⟩

end Sporos.Matcher.PerfectCopy

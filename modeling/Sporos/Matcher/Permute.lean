import Sporos.Lib.Lists
import Sporos.Matcher.Heaviest

/-! # The order of the source files

A rearrangement of the source files renames the indices of the sources in the graph of the
assignment, and changes nothing else: the two loops over the components stop at the same place for
the same reason, and pairs that are the only heaviest matching of one graph are renamed to those of
the other. -/

namespace Sporos.Matcher.Permute

open Sporos.Model.Matching
open Sporos.Matcher.Files
open Sporos.Matcher.Assign
open Sporos.Matcher.Heaviest
open Sporos.Lib.Assignment
open Sporos.Lib.Search
open Sporos.Lib.Loop

section

variable {policy : MatchingPolicy} {candidates : List TorrentFile}
  {sources sources' : List SourceFile}
variable {score : TorrentFile → LocalSourceFile → Option ℕ} {σ : Equiv.Perm ℕ}

/-! ### Edges -/

theorem mem_bucket_perm (hσ : ∀ i, sources'[σ i]? = sources[i]?) {key : BucketKey} {s : ℕ} :
    σ s ∈ sourceBucket policy sources' key ↔ s ∈ sourceBucket policy sources key := by
  rw [mem_sourceBucket, mem_sourceBucket, hσ]

theorem scoreAt_perm (hσ : ∀ i, sources'[σ i]? = sources[i]?) (candidate : TorrentFile) (s : ℕ) :
    scoreAt sources' score candidate (σ s) = scoreAt sources score candidate s := by
  rw [scoreAt, scoreAt, hσ]

theorem sourceBucket_perm (hσ : ∀ i, sources'[σ i]? = sources[i]?) (key : BucketKey) :
    (sourceBucket policy sources' key).Perm ((sourceBucket policy sources key).map σ) := by
  refine (List.perm_ext_iff_of_nodup nodup_sourceBucket
    (nodup_sourceBucket.map σ.injective)).mpr fun s => ?_
  obtain ⟨s, rfl⟩ := σ.surjective s
  rw [mem_bucket_perm hσ, List.mem_map_of_injective σ.injective]

theorem candidateEdges_perm (policy : MatchingPolicy)
    (score : TorrentFile → LocalSourceFile → Option ℕ) (hσ : ∀ i, sources'[σ i]? = sources[i]?)
    (candidate : TorrentFile) :
    (candidateEdges policy sources' score candidate).Perm
      ((candidateEdges policy sources score candidate).map (Prod.map σ id)) := by
  refine ((sourceBucket_perm hσ _).filterMap _).trans (List.Perm.of_eq ?_)
  rw [List.filterMap_map, candidateEdges, List.map_filterMap]
  refine List.filterMap_congr fun s _ => ?_
  simp only [Function.comp, scoreAt_perm hσ]
  cases scoreAt sources score candidate s <;> rfl

theorem lengths_perm (policy : MatchingPolicy) (candidates : List TorrentFile)
    (score : TorrentFile → LocalSourceFile → Option ℕ) (hσ : ∀ i, sources'[σ i]? = sources[i]?) :
    (allEdges policy candidates sources' score).map List.length =
      (allEdges policy candidates sources score).map List.length := by
  simp only [allEdges, List.map_map]
  refine List.map_congr_left fun candidate _ => ?_
  have := (candidateEdges_perm policy score hσ candidate).length_eq
  simpa using this

theorem isEmpty_perm (hσ : ∀ i, sources'[σ i]? = sources[i]?) (c : ℕ) :
    ((allEdges policy candidates sources' score).getD c []).isEmpty =
      ((allEdges policy candidates sources score).getD c []).isEmpty := by
  have hlen := congrArg (fun l => l.getD c 0) (lengths_perm policy candidates score hσ)
  have hget : ∀ edges : Edges, (edges.map List.length).getD c 0 = (edges.getD c []).length := by
    intro edges
    by_cases hc : c < edges.length
    · rw [List.getD_eq_getElem _ _ (by simpa using hc), List.getD_eq_getElem _ _ hc,
        List.getElem_map]
    · rw [List.getD_eq_default _ _ (by simpa using hc), List.getD_eq_default _ _ (by omega)]
      rfl
  simp only [hget] at hlen
  rw [Bool.eq_iff_iff, List.isEmpty_iff_length_eq_zero, List.isEmpty_iff_length_eq_zero, hlen]

theorem scoreUnit_perm (hσ : ∀ i, sources'[σ i]? = sources[i]?) :
    scoreUnit (allEdges policy candidates sources' score) =
      scoreUnit (allEdges policy candidates sources score) := by
  have hperm : ((allEdges policy candidates sources' score).flatten.map Prod.snd).Perm
      ((allEdges policy candidates sources score).flatten.map Prod.snd) := by
    simp only [allEdges]
    induction candidates with
    | nil => exact .refl _
    | cons candidate candidates ih =>
      simp only [List.map_cons, List.flatten_cons, List.map_append]
      refine List.Perm.append ?_ ih
      refine ((candidateEdges_perm policy score hσ candidate).map _).trans (List.Perm.of_eq ?_)
      rw [List.map_map]
      rfl
  rw [scoreUnit, scoreUnit, sumU64_perm hperm]

theorem rawAt_perm (hσ : ∀ i, sources'[σ i]? = sources[i]?) (c s : ℕ) :
    rawAt (allEdges policy candidates sources' score) c (σ s) =
      rawAt (allEdges policy candidates sources score) c s := by
  rw [rawAt_allEdges, rawAt_allEdges]
  refine congrArg _ (funext fun file => ?_)
  rw [scoreAt_perm hσ]
  exact if_congr (mem_bucket_perm hσ) rfl rfl

theorem fileWeight_perm (hσ : ∀ i, sources'[σ i]? = sources[i]?) (c s : ℕ) :
    fileWeight policy candidates sources' score c (σ s) =
      fileWeight policy candidates sources score c s := by
  unfold fileWeight pairWeight edgeWeight requiredUnit
  simp only [rawAt_perm hσ, scoreUnit_perm hσ]

/-! ### Components -/

/-- The node of the rearranged graph. -/
def rename (σ : Equiv.Perm ℕ) : Node → Node
  | (true, c) => (true, c)
  | (false, s) => (false, σ s)

theorem rename_mem (hσ : ∀ i, sources'[σ i]? = sources[i]?) (x y : Node)
    (h : y ∈ neighbours (allEdges policy candidates sources score) x) :
    rename σ y ∈ neighbours (allEdges policy candidates sources' score) (rename σ x) := by
  obtain ⟨b, x⟩ := x
  obtain ⟨b', y⟩ := y
  cases b <;> cases b'
  · exact absurd h not_mem_neighbours
  · refine mem_neighbours_false.mpr ?_
    rw [rawAt_perm hσ]
    exact mem_neighbours_false.mp h
  · refine mem_neighbours_true.mpr ?_
    rw [rawAt_perm hσ]
    exact mem_neighbours_true.mp h
  · exact absurd h not_mem_neighbours

theorem rename_symm_rename (y : Node) : rename σ.symm (rename σ y) = y := by
  obtain ⟨b, y⟩ := y
  cases b <;> simp [rename]

theorem perm_symm (hσ : ∀ i, sources'[σ i]? = sources[i]?) (i : ℕ) :
    sources[σ.symm i]? = sources'[i]? := by
  rw [← hσ, Equiv.apply_symm_apply]

theorem reach_rename (hσ : ∀ i, sources'[σ i]? = sources[i]?) (x y : Node) :
    Reach (neighbours (allEdges policy candidates sources' score)) (rename σ x) (rename σ y) ↔
      Reach (neighbours (allEdges policy candidates sources score)) x y := by
  constructor
  · intro h
    have := h.map (rename_mem (perm_symm hσ))
    rwa [rename_symm_rename, rename_symm_rename] at this
  · exact Reach.map (rename_mem hσ)

/-- The components of a start have the same candidates, and renamed sources. -/
theorem component_perm (hσ : ∀ i, sources'[σ i]? = sources[i]?) {start : ℕ}
    {comp comp' : List ℕ × List ℕ}
    (h : IsComponent (allEdges policy candidates sources score) start comp)
    (h' : IsComponent (allEdges policy candidates sources' score) start comp') :
    comp'.1 = comp.1 ∧ comp'.2.Perm (comp.2.map σ) := by
  constructor
  · refine ((List.perm_ext_iff_of_nodup h'.nodup_candidates h.nodup_candidates).mpr
      fun c => ?_).eq_of_pairwise (fun a b _ _ => le_antisymm) h'.sorted_candidates
      h.sorted_candidates
    rw [h'.mem_candidates, h.mem_candidates]
    exact reach_rename hσ (true, start) (true, c)
  · refine (List.perm_ext_iff_of_nodup h'.nodup_sources
      (h.nodup_sources.map σ.injective)).mpr fun s => ?_
    obtain ⟨s, rfl⟩ := σ.surjective s
    rw [List.mem_map_of_injective σ.injective, h'.mem_sources, h.mem_sources]
    exact reach_rename hσ (true, start) (false, s)

theorem relabel_perm (policy : MatchingPolicy) (candidates : List TorrentFile)
    (score : TorrentFile → LocalSourceFile → Option ℕ) (hσ : ∀ i, sources'[σ i]? = sources[i]?)
    (A : ℕ → Bool) :
    Relabel id σ (restrict (fileWeight policy candidates sources score) A)
      (restrict (fileWeight policy candidates sources' score) A) := by
  refine ⟨fun c s _ => ?_, fun c s h => ?_, fun _ _ _ _ _ _ h => h,
    fun _ _ _ _ _ _ h => σ.injective h⟩
  · unfold restrict
    rw [fileWeight_perm hσ]
    rfl
  · obtain ⟨s, rfl⟩ := σ.surjective s
    refine ⟨c, s, rfl, rfl, ?_⟩
    rw [restrict_ne_none] at h ⊢
    rwa [fileWeight_perm hσ] at h

theorem assignComponent_perm (hσ : ∀ i, sources'[σ i]? = sources[i]?)
    (hpos : ∀ file source v, score file source = some v → 0 < v) {start : ℕ}
    {comp comp' : List ℕ × List ℕ}
    (h : IsComponent (allEdges policy candidates sources score) start comp)
    (h' : IsComponent (allEdges policy candidates sources' score) start comp') :
    Agree (fun _ _ => True)
      (assignComponent policy candidates (allEdges policy candidates sources score) comp)
      (assignComponent policy candidates (allEdges policy candidates sources' score) comp') := by
  have hrel := relabel_perm policy candidates score hσ (fun c => decide (c ∈ comp.1))
  rcases assignComponent_spec policy candidates (isGraph_allEdges _ _ _ hpos) h with ⟨he, M, N, hM,
    hN, hne⟩ | ⟨pairs, he, hunique, -, -⟩ <;>
    rcases assignComponent_spec policy candidates (isGraph_allEdges _ _ _ hpos) h' with ⟨he', M',
      N', hM', hN', hne'⟩ | ⟨pairs', he', hunique', -, -⟩ <;>
    rw [he, he'] <;> simp only [Agree]
  · rw [(component_perm hσ h h').1] at hunique'
    obtain ⟨N₁, hN₁, hne₁⟩ := (hrel.exists_ne_iff hM).mpr ⟨N, hN, hne.symm⟩
    exact hne₁ ((hunique'.eq _ hN₁).trans (hunique'.eq _ (hrel.isHeaviest_image hM)).symm)
  · rw [(component_perm hσ h h').1] at hM' hN'
    obtain ⟨M₁, hM₁, rfl⟩ := hrel.exists_isHeaviest hM'
    obtain ⟨N₁, hN₁, rfl⟩ := hrel.exists_isHeaviest hN'
    exact hne' (by rw [hunique.eq M₁ hM₁, hunique.eq N₁ hN₁])

/-! ### The loop -/

/-- The loops have seen the same nodes, and counted the same operations. -/
structure Renamed (policy : MatchingPolicy) (candidates : List TorrentFile)
    (sources sources' : List SourceFile) (score : TorrentFile → LocalSourceFile → Option ℕ)
    (σ : Equiv.Perm ℕ) (s s' : Loop) : Prop where
  closed : Closed (neighbours (allEdges policy candidates sources score)) s.seen
  closed' : Closed (neighbours (allEdges policy candidates sources' score)) s'.seen
  seen : ∀ y, s'.seen (rename σ y) = s.seen y
  operations : s'.operations = s.operations

theorem Renamed.visit (hσ : ∀ i, sources'[σ i]? = sources[i]?)
    (hpos : ∀ file source v, score file source = some v → 0 < v) {s s' : Loop}
    (h : Renamed policy candidates sources sources' score σ s s') (start : ℕ)
    (hstart : start ∈ List.range candidates.length) :
    Agree (Renamed policy candidates sources sources' score σ)
      (visit policy candidates (allEdges policy candidates sources score) sources.length s start)
      (visit policy candidates (allEdges policy candidates sources' score) sources'.length s'
        start) := by
  have hseen : s'.seen (true, start) = s.seen (true, start) := h.seen (true, start)
  unfold Assign.visit
  simp only
  refine Agree.ite (by rw [hseen, isEmpty_perm hσ]) (fun _ => h) fun hskip => ?_
  simp only [Bool.or_eq_true, not_or, Bool.not_eq_true] at hskip
  have hlt : start < candidates.length := List.mem_range.mp hstart
  obtain ⟨hcomp, hsee, hclosed⟩ := component_spec
    (isGraph_allEdges policy candidates sources hpos)
    (length_allEdges.symm ▸ hlt) h.closed hskip.1
  obtain ⟨hcomp', hsee', hclosed'⟩ := component_spec
    (isGraph_allEdges policy candidates sources' hpos)
    (length_allEdges.symm ▸ hlt) h.closed' (hseen.trans hskip.1)
  have hcomps := component_perm hσ hcomp hcomp'
  have hlen := hcomps.2.length_eq
  rw [List.length_map] at hlen
  have hops : componentOperations
      (component start (allEdges policy candidates sources' score) sources'.length s'.seen).1 =
        componentOperations
          (component start (allEdges policy candidates sources score) sources.length s.seen).1 := by
    simp only [componentOperations, hcomps.1, hlen]
  refine Agree.ite (by rw [hcomps.1, hlen]) (fun _ => rfl) fun _ => ?_
  refine Agree.ite (by rw [hops, h.operations]) (fun _ => rfl) fun _ => ?_
  refine Agree.map (assignComponent_perm hσ hpos hcomp hcomp') fun _ _ _ =>
    ⟨hclosed, hclosed', fun y => ?_, by simp only [hops, h.operations]⟩
  rw [Bool.eq_iff_iff, hsee, hsee', h.seen]
  exact or_congr_right (reach_rename hσ (true, start) y)

theorem assignEdges_perm (policy : MatchingPolicy) (candidates : List TorrentFile)
    (hσ : ∀ i, sources'[σ i]? = sources[i]?)
    (hpos : ∀ file source v, score file source = some v → 0 < v) :
    Agree (Renamed policy candidates sources sources' score σ)
      (assignEdges policy candidates (allEdges policy candidates sources score) sources.length)
      (assignEdges policy candidates (allEdges policy candidates sources'
        score) sources'.length) := by
  refine foldlM_agree _ (fun start hstart s s' h => h.visit hσ hpos start hstart) _ _ ?_
  exact ⟨fun x hx => (by cases hx), fun x hx => (by cases hx), fun y => rfl, rfl⟩

/-- The pairs of the rearranged sources. -/
def renamePair (σ : Equiv.Perm ℕ) (pair : ℕ × ℕ × ℕ) : ℕ × ℕ × ℕ := (pair.1, σ pair.2.1, pair.2.2)

theorem mem_pairs_iff {edges : Edges} {pairs : List (ℕ × ℕ × ℕ)}
    (hraw : ∀ p ∈ pairs, rawAt edges p.1 p.2.1 = some p.2.2) (p : ℕ × ℕ × ℕ) :
    p ∈ pairs ↔ ends p ∈ edgeSet pairs ∧ rawAt edges p.1 p.2.1 = some p.2.2 := by
  constructor
  · exact fun hp => ⟨List.mem_toFinset.mpr (List.mem_map_of_mem hp), hraw p hp⟩
  · rintro ⟨hends, hp⟩
    obtain ⟨q, hq, hqp⟩ := List.mem_map.mp (List.mem_toFinset.mp hends)
    obtain ⟨h1, h2⟩ : q.1 = p.1 ∧ q.2.1 = p.2.1 := Prod.mk.inj hqp
    have h3 := hraw q hq
    rw [h1, h2, hp] at h3
    have : q = p := Prod.ext h1 (Prod.ext h2 (Option.some.inj h3).symm)
    exact this ▸ hq

theorem pairs_perm (hσ : ∀ i, sources'[σ i]? = sources[i]?)
    (hpos : ∀ file source v, score file source = some v → 0 < v) {pairs pairs' : List (ℕ × ℕ × ℕ)}
    (h : assignWith policy candidates sources score = .ok ⟨pairs, false⟩)
    (h' : assignWith policy candidates sources' score = .ok ⟨pairs', false⟩) :
    pairs'.Perm (pairs.map (renamePair σ)) := by
  obtain ⟨hunique, hnodup, hraw⟩ := assignWith_ok hpos h
  obtain ⟨hunique', hnodup', hraw'⟩ := assignWith_ok hpos h'
  have hrel : Relabel id σ (fileWeight policy candidates sources score)
      (fileWeight policy candidates sources' score) :=
    relabel_perm policy candidates score hσ fun _ => true
  have hset : edgeSet pairs' = (edgeSet pairs).image (Prod.map id σ) :=
    (hunique'.eq _ (hrel.isHeaviest_image hunique.toIsHeaviest)).symm
  have hinj : Function.Injective (renamePair σ) := fun p q hpq => by
    simp only [renamePair, Prod.mk.injEq, EmbeddingLike.apply_eq_iff_eq] at hpq
    exact Prod.ext hpq.1 (Prod.ext hpq.2.1 hpq.2.2)
  refine (List.perm_ext_iff_of_nodup hnodup'.of_map (hnodup.of_map.map hinj)).mpr fun p => ?_
  obtain ⟨q, rfl⟩ : ∃ q, renamePair σ q = p := ⟨(p.1, σ.symm p.2.1, p.2.2), by simp [renamePair]⟩
  rw [List.mem_map_of_injective hinj, mem_pairs_iff hraw, mem_pairs_iff hraw', hset]
  have hends : ends (renamePair σ q) = Prod.map id σ (ends q) := rfl
  rw [hends, (Function.injective_id.prodMap σ.injective).mem_finset_image]
  simp only [renamePair, rawAt_perm hσ]

/-- **The order of the sources** does not matter: the assignments fail alike, are ambiguous alike,
or pair the same files. -/
theorem assignWith_perm (policy : MatchingPolicy) (candidates : List TorrentFile)
    (hσ : ∀ i, sources'[σ i]? = sources[i]?) (hlen : sources'.length = sources.length)
    (hpos : ∀ file source v, score file source = some v → 0 < v) :
    Agree (fun a a' => a'.ambiguous = a.ambiguous ∧ a'.pairs.Perm (a.pairs.map (renamePair σ)))
      (assignWith policy candidates sources score)
        (assignWith policy candidates sources' score) := by
  have hpairs : ∀ pairs pairs', assignWith policy candidates sources score = .ok ⟨pairs, false⟩ →
      assignWith policy candidates sources' score = .ok ⟨pairs', false⟩ →
      pairs'.Perm (pairs.map (renamePair σ)) := fun _ _ => pairs_perm hσ hpos
  have hedges := assignEdges_perm policy candidates hσ hpos
  revert hpairs
  unfold assignWith
  rw [collectEdges_eq, collectEdges_eq, lengths_perm policy candidates score hσ, hlen]
  split_ifs with h₁ h₂
  · exact fun _ => rfl
  · exact fun _ => rfl
  · intro hpairs
    rw [hlen] at hedges
    simp only at hpairs ⊢
    cases hs : assignEdges policy candidates (allEdges policy candidates sources score)
        sources.length with
    | error e =>
      cases hs' : assignEdges policy candidates (allEdges policy candidates sources' score)
          sources.length with
      | error e' =>
        rw [hs, hs'] at hedges
        obtain rfl : e = e' := hedges
        cases e with
        | ambiguous => exact ⟨rfl, .refl _⟩
        | budgetExceeded => rfl
      | ok s' => rw [hs, hs'] at hedges; exact hedges.elim
    | ok s =>
      cases hs' : assignEdges policy candidates (allEdges policy candidates sources' score)
          sources.length with
      | error e' => rw [hs, hs'] at hedges; exact hedges.elim
      | ok s' =>
        rw [hs, hs'] at hpairs
        exact ⟨rfl, hpairs _ _ rfl rfl⟩

end

end Sporos.Matcher.Permute

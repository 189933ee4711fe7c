import Sporos.Matcher.Unlinked

/-! # What the assignment is best at

The graph of all candidates and sources that have a score, without buckets and components, and the
order in which its matchings are compared: first by the number of required candidates, then by the
bytes of the primary candidates, then by the scores. The weights of the edges pack the three numbers
in one, so that the assignment is the only matching that comes first in this order, and is called
ambiguous only where two matchings do. -/

namespace Sporos.Matcher.Objective

open Sporos.Model.Matching
open Sporos.Matcher.Release
open Sporos.Matcher.Files
open Sporos.Matcher.Assign
open Sporos.Matcher.Heaviest
open Sporos.Matcher.Evaluate
open Sporos.Matcher.Unlinked
open Sporos.Matcher.Invariance
open Sporos.Lib.Assignment

/-! ### Components -/

section

variable {policy : MatchingPolicy} {candidates : List TorrentFile} {edges : Edges}
variable {sourceCount start : ℕ}

/-- A component has no edge in common with the other candidates. -/
theorem separated_rest (policy : MatchingPolicy) (candidates : List TorrentFile)
    {comp : List ℕ × List ℕ} (h : IsComponent edges start comp) :
    Separated (pairWeight policy candidates edges) (fun c => decide (c ∈ comp.1))
      (fun c => !decide (c ∈ comp.1)) := by
  intro i j i₁ j₁ hi hi₁ hw hw₁
  have hi : i ∈ comp.1 := by simpa using hi
  have hi₁ : i₁ ∉ comp.1 := by simpa using hi₁
  constructor
  · rintro rfl
    exact hi₁ hi
  · rintro rfl
    have hj := (h.mem_sources j).mp (h.mem_of_rawAt hi (rawAt_of_pairWeight hw))
    have hback := mem_neighbours_false.mpr (rawAt_of_pairWeight hw₁)
    exact hi₁ ((h.mem_candidates i₁).mpr (hj.tail hback))

theorem lt_of_not_isEmpty (h : (edges.getD start []).isEmpty = false) : start < edges.length := by
  by_contra hge
  rw [List.getD_eq_default _ _ (by omega)] at h
  cases h

/-- An iteration stops as ambiguous at a component it has not seen. -/
theorem visit_ambiguous {s : Loop}
    (h : visit policy candidates edges sourceCount s start = .error .ambiguous) :
    s.seen (true, start) = false ∧ (edges.getD start []).isEmpty = false ∧
      assignComponent policy candidates edges (component start edges sourceCount s.seen).1 =
        .error .ambiguous := by
  unfold visit at h
  simp only at h
  split_ifs at h with hskip hfiles hops
  · cases h
  · cases h
  · simp only [Bool.or_eq_true, not_or, Bool.not_eq_true] at hskip
    refine ⟨hskip.1, hskip.2, ?_⟩
    cases hpairs : assignComponent policy candidates edges
        (component start edges sourceCount s.seen).1 with
    | ok pairs => rw [hpairs] at h; cases h
    | error e => rw [hpairs] at h; exact congrArg _ (Except.error.inj h)

theorem mem_edges_range (hG : IsGraph edges sourceCount) (c j : ℕ)
    (h : pairWeight policy candidates edges c j ≠ none) :
    (c, j) ∈ Finset.range edges.length ×ˢ Finset.range sourceCount := by
  have hraw := rawAt_of_pairWeight h
  obtain ⟨v, hv⟩ := Option.ne_none_iff_exists'.mp hraw
  exact Finset.mem_product.mpr ⟨Finset.mem_range.mpr (rawAt_lt hraw),
    Finset.mem_range.mpr (hG.lt c j v hv)⟩

/-- **An ambiguous loop** has met a component with two heaviest matchings, and so has the graph. -/
theorem assignEdges_ambiguous (hG : IsGraph edges sourceCount)
    (h : assignEdges policy candidates edges sourceCount = .error .ambiguous) :
    ∃ M N, IsHeaviest (pairWeight policy candidates edges) M ∧
      IsHeaviest (pairWeight policy candidates edges) N ∧ M ≠ N := by
  obtain ⟨before, start, after, s, -, hs, hvisit⟩ :=
    Lib.Loop.foldlM_error (P := Assigned policy candidates edges)
      (fun done c b b' hb hv => hb.visit hG hv) _ [] _ assigned_initialLoop h
  obtain ⟨hseen, hnonempty, hamb⟩ := visit_ambiguous hvisit
  obtain ⟨hcomp, -, -⟩ := component_spec hG (lt_of_not_isEmpty hnonempty) hs.closed hseen
  rcases assignComponent_spec policy candidates hG hcomp with ⟨-, M, N, hM, hN,
    hne⟩ | ⟨pairs, hok, -⟩
  · exact exists_two_isHeaviest (mem_edges_range hG) (separated_rest policy candidates
      hcomp) hM hN hne
  · rw [hok] at hamb
    cases hamb

end

/-- Only an ambiguous component makes the assignment ambiguous. -/
theorem assignWith_ambiguous {policy : MatchingPolicy} {candidates : List TorrentFile}
    {sources : List SourceFile} {score : TorrentFile → LocalSourceFile → Option ℕ}
    {pairs : List (ℕ × ℕ × ℕ)}
    (h : assignWith policy candidates sources score = .ok ⟨pairs, true⟩) :
    assignEdges policy candidates (allEdges policy candidates sources score) sources.length =
      .error .ambiguous := by
  unfold assignWith at h
  rw [collectEdges_eq] at h
  split_ifs at h with hfiles hedges
  simp only at h
  split at h
  · cases h
  · assumption
  · cases h

/-! ### The graph and the order -/

section

variable (U : Unicode) (policy : MatchingPolicy) (seasonMode : Bool) (candidates : List TorrentFile)
variable (sources : List SourceFile)

/-- The score of a candidate and a source, if there is an edge between them. -/
def scoreGraph (c s : ℕ) : Option ℕ :=
  (candidates[c]?).bind fun file => (sources[s]?).bind fun source =>
    edgeScore U policy seasonMode file source.2

/-- The number of required candidates matched. -/
def requiredCount (M : Finset (ℕ × ℕ)) : ℕ :=
  (M.filter fun e => (candidates[e.1]?).any (required policy)).card

/-- The size of a candidate, if it is primary. -/
def primarySize (c : ℕ) : ℕ :=
  (candidates[c]?).elim 0 fun file => if primary policy file then file.size else 0

/-- The bytes of the primary candidates matched. -/
def matchedPrimaryBytes (M : Finset (ℕ × ℕ)) : ℕ := ∑ e ∈ M, primarySize policy candidates e.1

/-- The scores of some pairs together. -/
def totalScore (M : Finset (ℕ × ℕ)) : ℕ :=
  ∑ e ∈ M, (scoreGraph U policy seasonMode candidates sources e.1 e.2).getD 0

/-- **The objective**, compared lexicographically. -/
def objective (M : Finset (ℕ × ℕ)) : ℕ ×ₗ (ℕ ×ₗ ℕ) :=
  toLex (requiredCount policy candidates M, toLex (matchedPrimaryBytes policy candidates M,
    totalScore U policy seasonMode candidates sources M))

end

section

variable {U : Unicode} {policy : MatchingPolicy} {seasonMode : Bool} {candidates : List TorrentFile}
variable {sources : List SourceFile}

/-- The edges found by way of the buckets are those of the graph. -/
theorem rawAt_eq_scoreGraph (c s : ℕ) :
    rawAt (allEdges policy candidates sources (edgeScore U policy seasonMode)) c s =
      scoreGraph U policy seasonMode candidates sources c s := by
  unfold scoreGraph
  cases hc : candidates[c]? with
  | none => rw [rawAt_allEdges, hc]; rfl
  | some file =>
    cases hs : sources[s]? with
    | none =>
      rw [rawAt_allEdges, hc, Option.bind_some, scoreAt, hs]
      exact ite_self none
    | some source => exact rawAt_edgeScore hc hs

theorem sum_range_getElem? {α : Type*} (f : α → ℕ) : ∀ l : List α,
    ∑ i ∈ Finset.range l.length, (l[i]?).elim 0 f = (l.map f).sum
  | [] => rfl
  | x :: l => by
    rw [List.length_cons, Finset.sum_range_succ', List.map_cons, List.sum_cons, Nat.add_comm]
    exact congrArg (f x + ·) (sum_range_getElem? f l)

/-- The edges of the graph with the weights of the assignment. -/
abbrev edgesOf (U : Unicode) (policy : MatchingPolicy) (seasonMode : Bool)
    (candidates : List TorrentFile) (sources : List SourceFile) : Edges :=
  allEdges policy candidates sources (edgeScore U policy seasonMode)

/-- The weight of an edge packs what it adds to the three numbers. -/
theorem fileWeight_getD {c s : ℕ}
    (h : fileWeight policy candidates sources (edgeScore U policy seasonMode) c s ≠ none) :
    (fileWeight policy candidates sources (edgeScore U policy seasonMode) c s).getD 0 =
      (scoreGraph U policy seasonMode candidates sources c s).getD 0
      + primarySize policy candidates c * scoreUnit (edgesOf U policy seasonMode candidates sources)
      + (if (candidates[c]?).any (required policy) then 1 else 0)
        * requiredUnit policy candidates (edgesOf U policy seasonMode candidates sources) := by
  obtain ⟨v, hv⟩ := Option.ne_none_iff_exists'.mp h
  obtain ⟨file, hc, hedge⟩ := Option.bind_eq_some_iff.mp hv
  obtain ⟨value, hraw, rfl⟩ := Option.map_eq_some_iff.mp hedge
  rw [hv, ← rawAt_eq_scoreGraph, hraw, primarySize, hc]
  simp only [Option.getD_some, Option.elim_some, Option.any_some, edgeWeight]
  split_ifs <;> ring

theorem weight_eq {M : Finset (ℕ × ℕ)}
    (hM : IsMatching (fileWeight policy candidates sources (edgeScore U policy seasonMode)) M) :
    weight (fileWeight policy candidates sources (edgeScore U policy seasonMode)) M =
      totalScore U policy seasonMode candidates sources M
      + matchedPrimaryBytes policy candidates M
        * scoreUnit (edgesOf U policy seasonMode candidates sources)
      + requiredCount policy candidates M
        * requiredUnit policy candidates (edgesOf U policy seasonMode candidates sources) := by
  rw [weight, Finset.sum_congr rfl fun e he => fileWeight_getD (hM.edge e he),
    Finset.sum_add_distrib, Finset.sum_add_distrib, totalScore, matchedPrimaryBytes, requiredCount,
    Finset.card_filter, Finset.sum_mul, Finset.sum_mul]

/-- The edges and the graph have the same edges. -/
theorem fileWeight_ne_none_iff (c s : ℕ) :
    fileWeight policy candidates sources (edgeScore U policy seasonMode) c s ≠ none ↔
      scoreGraph U policy seasonMode candidates sources c s ≠ none := by
  rw [← rawAt_eq_scoreGraph]
  exact ⟨rawAt_of_pairWeight, pairWeight_of_rawAt length_allEdges⟩

/-- The score of an edge is among the scores of its candidate. -/
theorem score_le (c s : ℕ) : (scoreGraph U policy seasonMode candidates sources c s).getD 0 ≤
    ((edgesOf U policy seasonMode candidates sources)[c]?).elim 0 fun row =>
      (row.map Prod.snd).sum := by
  cases hv : scoreGraph U policy seasonMode candidates sources c s with
  | none => exact Nat.zero_le _
  | some v =>
    rw [← rawAt_eq_scoreGraph] at hv
    have hc := rawAt_lt (by rw [hv]; simp : _ ≠ none)
    rw [rawAt, List.getD_eq_getElem _ _ hc] at hv
    rw [List.getElem?_eq_getElem hc]
    obtain ⟨l, l', hl, -⟩ := List.lookup_eq_some_iff.mp hv
    exact List.le_sum_of_mem (List.mem_map_of_mem (by rw [hl]; simp : (s, v) ∈ _))

section

variable {M : Finset (ℕ × ℕ)}
  (hM : IsMatching (scoreGraph U policy seasonMode candidates sources) M)
include hM

theorem lt_of_mem_matching {e : ℕ × ℕ} (he : e ∈ M) : e.1 ∈ Finset.range candidates.length := by
  obtain ⟨v, hv⟩ := Option.ne_none_iff_exists'.mp (hM.edge e he)
  obtain ⟨file, hc, -⟩ := Option.bind_eq_some_iff.mp hv
  exact Finset.mem_range.mpr (List.getElem?_eq_some_iff.mp hc).1

theorem matchedPrimaryBytes_le :
    matchedPrimaryBytes policy candidates M ≤ primaryBytes policy candidates := by
  have hsum : ((candidates.filter (primary policy)).map TorrentFile.size).sum =
      (candidates.map fun file => if primary policy file then file.size else 0).sum :=
    by simp [List.sum_map_ite]
  rw [primaryBytes, hsum, ← sum_range_getElem?]
  exact hM.sum_row_le (fun e he => lt_of_mem_matching hM he) (primarySize policy candidates)

theorem totalScore_le : totalScore U policy seasonMode candidates sources M ≤
    ((edgesOf U policy seasonMode candidates sources).flatten.map Prod.snd).sum := by
  have hsum : ((edgesOf U policy seasonMode candidates sources).flatten.map Prod.snd).sum =
      ((edgesOf U policy seasonMode candidates sources).map fun row =>
        (row.map Prod.snd).sum).sum := by
    rw [List.map_flatten, List.sum_flatten, List.map_map]
    rfl
  rw [hsum, ← sum_range_getElem?, length_allEdges]
  exact (Finset.sum_le_sum fun e _ => score_le e.1 e.2).trans
    (hM.sum_row_le (fun e he => lt_of_mem_matching hM he) fun c =>
      ((edgesOf U policy seasonMode candidates sources)[c]?).elim 0 fun row =>
        (row.map Prod.snd).sum)

end

/-- The scores add up to a `u64` if the policy allows fewer than `2^64 / 1111111` edges; the
configuration allows a million. -/
theorem scores_fit {a : Assignment} (hpolicy : policy.maxCandidateEdges * 1111111 < 2 ^ 64)
    (h : assignWith policy candidates sources (edgeScore U policy seasonMode) = .ok a) :
    ((edgesOf U policy seasonMode candidates sources).flatten.map Prod.snd).sum < 2 ^ 64 := by
  have hcount : ((edgesOf U policy seasonMode candidates sources).map List.length).sum ≤
      policy.maxCandidateEdges := by
    unfold assignWith at h
    rw [collectEdges_eq] at h
    split_ifs at h with hfiles hedges
    exact Nat.not_lt.mp hedges
  calc ((edgesOf U policy seasonMode candidates sources).flatten.map Prod.snd).sum
      ≤ ((edgesOf U policy seasonMode candidates sources).map List.length).sum * 1111111 :=
        sum_scores_le policy candidates sources fun _ _ _ => edgeScore_le
    _ ≤ policy.maxCandidateEdges * 1111111 := Nat.mul_le_mul_right _ hcount
    _ < 2 ^ 64 := hpolicy

/-- **The weights** order the matchings by the objective, as long as the scores add up to a `u64`.
-/
theorem weight_le_iff
    (hfit : ((edgesOf U policy seasonMode candidates sources).flatten.map Prod.snd).sum < 2 ^ 64)
    (M N : Finset (ℕ × ℕ))
    (hM : IsMatching (fileWeight policy candidates sources (edgeScore U policy seasonMode)) M)
    (hN : IsMatching (fileWeight policy candidates sources (edgeScore U policy seasonMode)) N) :
    weight (fileWeight policy candidates sources (edgeScore U policy seasonMode)) M ≤
        weight (fileWeight policy candidates sources (edgeScore U policy seasonMode)) N ↔
      objective U policy seasonMode candidates sources M ≤
        objective U policy seasonMode candidates sources N := by
  have hscore : ∀ {K}, IsMatching (scoreGraph U policy seasonMode candidates sources) K →
      totalScore U policy seasonMode candidates sources K <
        scoreUnit (edgesOf U policy seasonMode candidates sources) := fun {K} hK => by
    rw [scoreUnit, sumU64_eq hfit]
    exact Nat.lt_succ_of_le (totalScore_le hK)
  have hM' := (isMatching_congr fileWeight_ne_none_iff).mp hM
  have hN' := (isMatching_congr fileWeight_ne_none_iff).mp hN
  rw [weight_eq hM, weight_eq hN]
  exact packed_le_iff (matchedPrimaryBytes_le hM') (matchedPrimaryBytes_le hN')
    (hscore hM') (hscore hN')

/-- **The assignment**: unless it is ambiguous, its pairs are the only matching of the graph with
the largest objective; if it is ambiguous, the graph has two. -/
theorem assignWith_objective {a : Assignment}
    (hfit : ((edgesOf U policy seasonMode candidates sources).flatten.map Prod.snd).sum < 2 ^ 64)
    (h : assignWith policy candidates sources (edgeScore U policy seasonMode) = .ok a) :
    (a.ambiguous = false →
      IsBest (scoreGraph U policy seasonMode candidates sources)
          (objective U policy seasonMode candidates sources) (edgeSet a.pairs) ∧
        (∀ N, IsBest (scoreGraph U policy seasonMode candidates sources)
          (objective U policy seasonMode candidates sources) N → N = edgeSet a.pairs) ∧
        (a.pairs.map ends).Nodup ∧
        ∀ p ∈ a.pairs, scoreGraph U policy seasonMode candidates sources p.1 p.2.1 = some p.2.2) ∧
    (a.ambiguous = true → ∃ M N,
      IsBest (scoreGraph U policy seasonMode candidates sources)
          (objective U policy seasonMode candidates sources) M ∧
        IsBest (scoreGraph U policy seasonMode candidates sources)
          (objective U policy seasonMode candidates sources) N ∧ M ≠ N) := by
  have hpos := edgeScore_pos U policy seasonMode
  have hbest : ∀ {M},
    IsHeaviest (fileWeight policy candidates sources (edgeScore U policy seasonMode)) M ↔
      IsBest (scoreGraph U policy seasonMode candidates sources)
        (objective U policy seasonMode candidates sources) M :=
    isHeaviest_iff_isBest fileWeight_ne_none_iff (weight_le_iff hfit)
  obtain ⟨pairs, ambiguous⟩ := a
  constructor
  · rintro rfl
    obtain ⟨hunique, hnodup, hraw⟩ := assignWith_ok hpos h
    refine ⟨hbest.mp hunique.toIsHeaviest, fun N hN => hunique.eq N (hbest.mpr hN),
      hnodup, fun p hp => ?_⟩
    rw [← rawAt_eq_scoreGraph]
    exact hraw p hp
  · rintro rfl
    obtain ⟨M, N, hM, hN, hne⟩ :=
      assignEdges_ambiguous (isGraph_allEdges policy candidates sources hpos)
      (assignWith_ambiguous h)
    exact ⟨M, N, hbest.mp hM, hbest.mp hN, hne⟩

end

/-- The files of a film. -/
def filmFiles : List TorrentFile := candidateFiles filmRequest.candidate

/-- The files of two sources of the film. -/
def filmSources : List SourceFile := filmRequest.sources.flatMap sourceFiles

theorem assignWith_objective_film :
    (assignWith filmRequest.policy filmFiles filmSources
        (edgeScore Unicode.ascii filmRequest.policy false) =
          .ok ⟨[(0, 1, 1101101), (1, 0, 1100101)], false⟩ ∧
      IsBest (scoreGraph Unicode.ascii filmRequest.policy false filmFiles filmSources)
        (objective Unicode.ascii filmRequest.policy false filmFiles filmSources)
        (edgeSet [(0, 1, 1101101), (1, 0, 1100101)])) ∧
    (assignWith filmRequest.policy filmFiles (filmSources ++ filmSources)
        (edgeScore Unicode.ascii filmRequest.policy false) = .ok ⟨[], true⟩ ∧
      ∃ M N,
        IsBest (scoreGraph Unicode.ascii filmRequest.policy false filmFiles
        (filmSources ++ filmSources))
          (objective Unicode.ascii filmRequest.policy false filmFiles (filmSources
            ++ filmSources)) M ∧
        IsBest (scoreGraph Unicode.ascii filmRequest.policy false filmFiles
          (filmSources ++ filmSources))
          (objective Unicode.ascii filmRequest.policy false filmFiles (filmSources
            ++ filmSources)) N ∧
        M ≠ N) := by
  have hpolicy : filmRequest.policy.maxCandidateEdges * 1111111 < 2 ^ 64 := by decide
  have hone : assignWith filmRequest.policy filmFiles filmSources
      (edgeScore Unicode.ascii filmRequest.policy false) =
        .ok ⟨[(0, 1, 1101101), (1, 0, 1100101)], false⟩ := by decide +kernel
  have htwo : assignWith filmRequest.policy filmFiles (filmSources ++ filmSources)
      (edgeScore Unicode.ascii filmRequest.policy false) = .ok ⟨[], true⟩ := by decide +kernel
  exact ⟨⟨hone, ((assignWith_objective (scores_fit hpolicy hone) hone).1 rfl).1⟩,
    htwo, (assignWith_objective (scores_fit hpolicy htwo) htwo).2 rfl⟩

end Sporos.Matcher.Objective

import Sporos.Lib.Loop
import Sporos.Matcher.Assign
import Mathlib.Data.List.GetD

/-! # The assignment is the heaviest matching

`optimalAssignment` returns a heaviest matching of the weights without the banned pair. -/

namespace Sporos.Matcher.Heaviest

open Sporos.Model.Matching
open Sporos.Matcher.Files
open Sporos.Matcher.Hungarian
open Sporos.Matcher.Assign
open Sporos.Lib.Assignment
open Sporos.Lib.Search

/-! ### One component -/

section

variable {weights : Weights} {banned : Option (ℕ × ℕ)} {n : ℕ}

theorem weightAt_ne_none (hrect : ∀ row ∈ weights, row.length = n) {r k : ℕ}
    (h : weightAt weights r k ≠ none) : r < weights.length ∧ k < n := by
  unfold weightAt at h
  by_cases hr : r < weights.length
  · rw [List.getD_eq_getElem _ _ hr] at h
    refine ⟨hr, ?_⟩
    by_contra hk
    rw [List.getD_eq_default _ _ (by rw [hrect _ (List.getElem_mem hr)]; omega)] at h
    exact h rfl
  · rw [List.getD_eq_default weights _ (by omega)] at h
    exact absurd rfl h

theorem ban_ne_none {w : ℕ → ℕ → Option ℕ} {r k : ℕ} :
    ban w banned r k ≠ none ↔ banned ≠ some (r, k) ∧ w r k ≠ none := by
  unfold ban
  split_ifs with h <;> simp [h]

/-- The cost of a pair is its weight, negated, and zero where there is no edge. -/
theorem cost_eq (hn : (weights.headD []).length = n) (hrect : ∀ row ∈ weights, row.length = n)
    (r k : ℕ) : cost weights banned r k = -((ban (weightAt weights) banned r k).getD 0 : ℕ) := by
  unfold cost ban
  rw [hn]
  by_cases hb : banned = some (r, k)
  · simp [hb]
  · by_cases hk : k < n
    · simp [hb, hk]
    · have : weightAt weights r k = none := by
        by_contra hne
        exact hk (weightAt_ne_none hrect hne).2
      simp [hb, hk, this]

/-- The edges an assignment of the rows uses. -/
def graph {R : ℕ} (w : ℕ → ℕ → Option ℕ) (f : Fin R → ℕ) : Finset (ℕ × ℕ) :=
  (Finset.univ.filter fun i => w i.val (f i) ≠ none).image fun i => (i.val, f i)

theorem mem_graph {R : ℕ} {w : ℕ → ℕ → Option ℕ} {f : Fin R → ℕ} {e : ℕ × ℕ} :
    e ∈ graph w f ↔ ∃ i : Fin R, e = (i.val, f i) ∧ w i.val (f i) ≠ none := by
  simp only [graph, Finset.mem_image, Finset.mem_filter, Finset.mem_univ, true_and]
  constructor
  · rintro ⟨i, hi, rfl⟩; exact ⟨i, rfl, hi⟩
  · rintro ⟨i, rfl, hi⟩; exact ⟨i, hi, rfl⟩

theorem isMatching_graph {R : ℕ} {w : ℕ → ℕ → Option ℕ} {f : Fin R → ℕ}
    (hf : Function.Injective f) : IsMatching w (graph w f) := by
  refine ⟨fun e he => ?_, fun e he e₁ he₁ heq => ?_, fun e he e₁ he₁ heq => ?_⟩
  · obtain ⟨i, rfl, hi⟩ := mem_graph.mp he
    exact hi
  · obtain ⟨i, rfl, -⟩ := mem_graph.mp he
    obtain ⟨j, rfl, -⟩ := mem_graph.mp he₁
    rw [Fin.ext (show i.val = j.val from heq)]
  · obtain ⟨i, rfl, -⟩ := mem_graph.mp he
    obtain ⟨j, rfl, -⟩ := mem_graph.mp he₁
    rw [hf (show f i = f j from heq)]

theorem weight_graph {R : ℕ} (w : ℕ → ℕ → Option ℕ) (f : Fin R → ℕ) :
    weight w (graph w f) = ∑ i : Fin R, (w i.val (f i)).getD 0 := by
  unfold weight graph
  rw [Finset.sum_image fun i _ j _ h => Fin.ext (congrArg Prod.fst h)]
  refine Finset.sum_subset (Finset.filter_subset _ _) fun i _ hi => ?_
  simp only [Finset.mem_filter, Finset.mem_univ, true_and, not_not] at hi
  rw [hi, Option.getD_none]

/-- Every matching is the graph of an injective assignment to the columns and the dummy columns. -/
theorem exists_graph_eq {R : ℕ} {w : ℕ → ℕ → Option ℕ} {M : Finset (ℕ × ℕ)}
    (hedge : ∀ r k, w r k ≠ none → r < R ∧ k < n) (hM : IsMatching w M) :
    ∃ b : Fin R → Fin (n + R), Function.Injective b ∧ graph w (fun i => (b i).val) = M := by
  have hcolumn : ∀ i : Fin R, ∃ k : Fin (n + R), (i.val, k.val) ∈ M ∨
      (k.val = n + i.val ∧ ∀ j, (i.val, j) ∉ M) := fun i => by
    by_cases h : ∃ j, (i.val, j) ∈ M
    · obtain ⟨j, hj⟩ := h
      exact ⟨⟨j, by have := (hedge _ _ (hM.edge _ hj)).2; omega⟩, .inl hj⟩
    · push Not at h
      exact ⟨⟨n + i.val, by omega⟩, .inr ⟨rfl, h⟩⟩
  choose b hb using hcolumn
  refine ⟨b, fun i j hij => ?_, Finset.ext fun e => ?_⟩
  · rcases hb i with hi | hi <;> rcases hb j with hj | hj
    · have := hM.column _ hi _ hj (by rw [hij])
      exact Fin.ext (congrArg Prod.fst this)
    · have := (hedge _ _ (hM.edge _ hi)).2
      simp only at this
      omega
    · have := (hedge _ _ (hM.edge _ hj)).2
      simp only at this
      omega
    · exact Fin.ext (by omega)
  · rw [mem_graph]
    constructor
    · rintro ⟨i, rfl, hi⟩
      rcases hb i with h | h
      · exact h
      · have := (hedge _ _ hi).2
        omega
    · intro he
      refine ⟨⟨e.1, (hedge _ _ (hM.edge e he)).1⟩, ?_⟩
      rcases hb ⟨e.1, (hedge _ _ (hM.edge e he)).1⟩ with h | h
      · have heq := hM.row _ h e he rfl
        exact ⟨heq.symm, hM.edge _ h⟩
      · exact absurd he (h.2 e.2)

theorem length_costs (banned : Option (ℕ × ℕ)) :
    (costs weights banned).length = weights.length := by simp [costs]

theorem length_of_mem_costs {row : List ℤ} (h : row ∈ costs weights banned) :
    row.length = (weights.headD []).length + weights.length := by
  obtain ⟨r, -, rfl⟩ := List.mem_map.mp h
  simp

theorem entry_costs {r k : ℕ} (hr : r < weights.length)
    (hk : k < (weights.headD []).length + weights.length) :
    entry (costs weights banned) r k = cost weights banned r k := by
  have hrow : (costs weights banned).getD r [] =
      (List.range ((weights.headD []).length + weights.length)).map (cost weights banned r) := by
    rw [List.getD_eq_getElem _ _ (by rw [length_costs banned]; exact hr)]
    simp only [costs, List.getElem_map, List.getElem_range]
  rw [entry, hrow, List.getD_eq_getElem _ _ (by simpa using hk), List.getElem_map,
    List.getElem_range]

theorem selectPair_eq_some {e e' : ℕ × ℕ} (hn : (weights.headD []).length = n)
    (hrect : ∀ row ∈ weights, row.length = n) :
    selectPair weights banned e = some e'
      ↔ e = e' ∧ ban (weightAt weights) banned e.1 e.2 ≠ none := by
  unfold selectPair
  rw [ban_ne_none, hn]
  split_ifs with h
  · have hw : weightAt weights e.1 e.2 ≠ none := Option.isSome_iff_ne_none.mp h.2.2
    simp [h.2.1, hw]
  · simp only [false_iff, not_and, not_not]
    rintro rfl hb
    by_contra hw
    exact h ⟨(weightAt_ne_none hrect hw).2, hb, Option.isSome_iff_ne_none.mpr hw⟩

/-- The assigned rows and columns, in the order of the rows. -/
def assigned (l : List ℕ) : List (ℕ × ℕ) := l.zipIdx.map Prod.swap

theorem nodup_assigned (l : List ℕ) : (assigned l).Nodup := by
  refine List.Nodup.of_map Prod.fst ?_
  have : (assigned l).map Prod.fst = List.range' 0 l.length := by
    rw [assigned, List.map_map, ← List.zipIdx_map_snd 0 l]
    rfl
  rw [this]
  exact List.nodup_range'

theorem mem_assigned {l : List ℕ} {e : ℕ × ℕ} : e ∈ assigned l ↔ l[e.1]? = some e.2 := by
  obtain ⟨r, k⟩ := e
  simp only [assigned, List.mem_map, Prod.exists, Prod.swap_prod_mk, Prod.mk.injEq]
  constructor
  · rintro ⟨k', r', h, rfl, rfl⟩
    exact List.mem_zipIdx_iff_getElem?.mp h
  · intro h
    exact ⟨k, r, List.mem_zipIdx_iff_getElem?.mpr h, rfl, rfl⟩

theorem optimalAssignment_nodup : (optimalAssignment weights banned).2.Nodup := by
  unfold optimalAssignment
  split_ifs with h
  · exact List.nodup_nil
  · refine List.Nodup.filterMap (fun e e' f h h' => ?_) (nodup_assigned _)
    simp only [selectPair, Option.mem_def, Option.ite_none_right_eq_some, Option.some.injEq] at h h'
    rw [h.2, h'.2]

/-- The pairs are the edges of the cheapest assignment. -/
theorem optimalAssignment_graph (banned : Option (ℕ × ℕ)) (hn : (weights.headD []).length = n)
    (hrect : ∀ row ∈ weights, row.length = n) (hpos : weights.length ≠ 0) :
    ∃ a : Fin weights.length → Fin (n + weights.length), Function.Injective a ∧
      (optimalAssignment weights banned).2.toFinset =
        graph (ban (weightAt weights) banned) (fun i => (a i).val) ∧
      ∀ b : Fin weights.length → Fin (n + weights.length), Function.Injective b →
        ∑ i, ((ban (weightAt weights) banned i.val (b i).val).getD 0) ≤
          ∑ i, ((ban (weightAt weights) banned i.val (a i).val).getD 0) := by
  have hrows : ∀ row ∈ costs weights banned, row.length = n + weights.length :=
    fun row h => by rw [length_of_mem_costs h, hn]
  obtain ⟨a, hinj, hlist, hcheap⟩ := hungarian_spec hrows
    (fun h => hpos (by rw [← length_costs banned, h, List.length_nil]))
    (by rw [length_costs]; omega)
  have hlen : (costs weights banned).length = weights.length := length_costs banned
  let c : Fin weights.length ≃ Fin (costs weights banned).length := finCongr hlen.symm
  have hentry : ∀ f : Fin (costs weights banned).length → Fin (n + weights.length),
      ∑ i : Fin (costs weights banned).length, entry (costs weights banned) i.val (f i).val =
        -((∑ i : Fin weights.length,
          (ban (weightAt weights) banned i.val (f (c i)).val).getD 0 : ℕ) : ℤ) := fun f => by
    rw [← Equiv.sum_comp c, Nat.cast_sum, ← Finset.sum_neg_distrib]
    refine Finset.sum_congr rfl fun i _ => ?_
    have hi : (c i).val = i.val := rfl
    rw [hi, entry_costs i.2 (by rw [hn]; exact (f (c i)).2), cost_eq hn hrect]
  refine ⟨a ∘ c, hinj.comp c.injective, ?_, fun b hb => ?_⟩
  · ext e
    rw [List.mem_toFinset, mem_graph]
    simp only [optimalAssignment, if_neg hpos, List.mem_filterMap]
    change (∃ e' ∈ assigned _, _) ↔ _
    simp only [mem_assigned, selectPair_eq_some hn hrect, hlist, List.getElem?_ofFn]
    constructor
    · rintro ⟨e', he', rfl, hw⟩
      split_ifs at he' with hr
      have hk : (a ⟨e'.1, hr⟩).val = e'.2 := Option.some.inj he'
      refine ⟨c.symm ⟨e'.1, hr⟩, ?_, ?_⟩
      · simp only [Function.comp, Equiv.apply_symm_apply, hk]; rfl
      · simp only [Function.comp, Equiv.apply_symm_apply, hk]; exact hw
    · rintro ⟨i, rfl, hw⟩
      refine ⟨_, ?_, rfl, hw⟩
      rw [dif_pos (show (i.val, ((a ∘ c) i).val).1 < _ from (c i).2)]
      rfl
  · have h := hcheap (b ∘ c.symm) (hb.comp c.symm.injective)
    rw [hentry a, hentry (b ∘ c.symm)] at h
    simp only [Function.comp, Equiv.symm_apply_apply] at h ⊢
    omega

/-- **The optimal assignment** is a heaviest matching of the graph without the banned pair. -/
theorem optimalAssignment_isHeaviest (banned : Option (ℕ × ℕ)) (hn : (weights.headD []).length = n)
    (hrect : ∀ row ∈ weights, row.length = n) :
    IsHeaviest (ban (weightAt weights) banned) (optimalAssignment weights banned).2.toFinset := by
  have hedge : ∀ r k, ban (weightAt weights) banned r k ≠ none → r < weights.length ∧ k < n :=
    fun r k h => weightAt_ne_none hrect (ban_ne_none.mp h).2
  by_cases hpos : weights.length = 0
  · simp only [optimalAssignment, if_pos hpos, List.toFinset_nil]
    refine ⟨⟨by simp, by simp, by simp⟩, fun N hN => ?_⟩
    have : N = ∅ := Finset.eq_empty_of_forall_notMem fun e he => by
      have := (hedge _ _ (hN.edge e he)).1
      omega
    rw [this]
  · obtain ⟨a, hinj, hgraph, hbest⟩ := optimalAssignment_graph banned hn hrect hpos
    rw [hgraph]
    refine ⟨isMatching_graph (Fin.val_injective.comp hinj), fun N hN => ?_⟩
    obtain ⟨b, hb, rfl⟩ := exists_graph_eq hedge hN
    rw [weight_graph, weight_graph]
    exact hbest b hb

/-- The total is the weight of the pairs. -/
theorem optimalAssignment_total (hn : (weights.headD []).length = n)
    (hrect : ∀ row ∈ weights, row.length = n) :
    (optimalAssignment weights banned).1 =
      weight (ban (weightAt weights) banned) (optimalAssignment weights banned).2.toFinset := by
  have hedge := (optimalAssignment_isHeaviest banned hn hrect).edge
  have hsum : (optimalAssignment weights banned).1 = ((optimalAssignment weights banned).2.map
      (fun pair => (weightAt weights pair.1 pair.2).getD 0)).sum := by
    unfold optimalAssignment
    split_ifs <;> rfl
  rw [hsum, weight, List.sum_toFinset _ optimalAssignment_nodup]
  congr 1
  refine List.map_congr_left fun e he => ?_
  rw [ban, if_neg (ban_ne_none.mp (hedge e (List.mem_toFinset.mpr he))).1]

end

/-! ### The graph of the edges -/

theorem lookup_ne_none {l : List (ℕ × ℕ)} {s : ℕ} : l.lookup s ≠ none ↔ ∃ e ∈ l, e.1 = s := by
  rw [Ne, List.lookup_eq_none_iff]
  push Not
  constructor
  · rintro ⟨e, he, heq⟩; exact ⟨e, he, (by simpa using heq : s = e.1).symm⟩
  · rintro ⟨e, he, rfl⟩; exact ⟨e, he, by simp⟩

/-- Scores are positive and the sources of the edges exist. -/
structure IsGraph (edges : Edges) (sourceCount : ℕ) : Prop where
  lt : ∀ c s v, rawAt edges c s = some v → s < sourceCount
  pos : ∀ c s v, rawAt edges c s = some v → 0 < v

section

variable {edges : Edges} {sourceCount : ℕ}

theorem rawAt_lt {c s : ℕ} (h : rawAt edges c s ≠ none) : c < edges.length := by
  by_contra hc
  rw [rawAt, List.getD_eq_default _ _ (by omega)] at h
  exact h rfl

theorem mem_neighbours_true {c s : ℕ} :
    (false, s) ∈ neighbours edges (true, c) ↔ rawAt edges c s ≠ none := by
  rw [rawAt, lookup_ne_none]
  simp [neighbours]

theorem mem_neighbours_false {c s : ℕ} :
    (true, c) ∈ neighbours edges (false, s) ↔ rawAt edges c s ≠ none := by
  constructor
  · intro h
    simp only [neighbours, List.mem_map, reverse, List.mem_filter, List.any_eq_true,
      decide_eq_true_eq, Prod.mk.injEq, true_and, exists_eq_right] at h
    rw [rawAt, lookup_ne_none]
    exact h.2
  · intro h
    have hlt := rawAt_lt h
    rw [rawAt, lookup_ne_none] at h
    simp only [neighbours, List.mem_map, reverse, List.mem_filter, List.any_eq_true,
      decide_eq_true_eq, Prod.mk.injEq, true_and, exists_eq_right]
    exact ⟨List.mem_range.mpr hlt, h⟩

theorem not_mem_neighbours {b : Bool} {x y : ℕ} : (b, y) ∉ neighbours edges (b, x) := by
  cases b <;> simp [neighbours]

theorem neighbours_symm (x y : Node) (h : y ∈ neighbours edges x) : x ∈ neighbours edges y := by
  obtain ⟨b, x⟩ := x
  obtain ⟨b', y⟩ := y
  cases b <;> cases b'
  · exact absurd h not_mem_neighbours
  · exact mem_neighbours_true.mpr (mem_neighbours_false.mp h)
  · exact mem_neighbours_false.mpr (mem_neighbours_true.mp h)
  · exact absurd h not_mem_neighbours

/-- The nodes of the graph. -/
def allNodes (edges : Edges) (sourceCount : ℕ) : List Node :=
  (List.range edges.length).map (true, ·) ++ (List.range sourceCount).map (false, ·)

theorem mem_allNodes_of_reach (hG : IsGraph edges sourceCount) {start : ℕ}
    (hstart : start < edges.length) {y : Node} (h : Reach (neighbours edges) (true, start) y) :
    y ∈ allNodes edges sourceCount := by
  cases h with
  | refl => simp [allNodes, hstart]
  | @tail x _ _ hxy =>
    obtain ⟨b, x⟩ := x
    obtain ⟨b', y⟩ := y
    cases b <;> cases b'
    · exact absurd hxy not_mem_neighbours
    · simp [allNodes, rawAt_lt (mem_neighbours_false.mp hxy)]
    · obtain ⟨v, hv⟩ := Option.ne_none_iff_exists'.mp (mem_neighbours_true.mp hxy)
      simp [allNodes, hG.lt _ _ _ hv]
    · exact absurd hxy not_mem_neighbours

theorem mem_side {b : Bool} {nodes : List Node} {x : ℕ} : x ∈ side b nodes ↔ (b, x) ∈ nodes := by
  simp only [side, List.mem_insertionSort, List.mem_map, List.mem_filter, decide_eq_true_eq]
  constructor
  · rintro ⟨⟨b', x⟩, ⟨h, rfl⟩, rfl⟩; exact h
  · intro h; exact ⟨(b, x), ⟨h, rfl⟩, rfl⟩

theorem nodup_side {b : Bool} {nodes : List Node} (h : nodes.Nodup) : (side b nodes).Nodup := by
  rw [side, (List.perm_insertionSort _ _).nodup_iff]
  refine (h.filter _).map_on fun x hx y hy heq => ?_
  simp only [List.mem_filter, decide_eq_true_eq] at hx hy
  exact Prod.ext (hx.2.trans hy.2.symm) heq

theorem pairwise_side {b : Bool} {nodes : List Node} : (side b nodes).Pairwise (· ≤ ·) :=
  List.pairwise_insertionSort _ _

/-- What `component` returns: the nodes reachable from the start. -/
structure IsComponent (edges : Edges) (start : ℕ) (comp : List ℕ × List ℕ) : Prop where
  mem_candidates : ∀ c, c ∈ comp.1 ↔ Reach (neighbours edges) (true, start) (true, c)
  mem_sources : ∀ s, s ∈ comp.2 ↔ Reach (neighbours edges) (true, start) (false, s)
  nodup_candidates : comp.1.Nodup
  nodup_sources : comp.2.Nodup
  sorted_candidates : comp.1.Pairwise (· ≤ ·)
  sorted_sources : comp.2.Pairwise (· ≤ ·)

/-- **The component** of an unseen start consists of the nodes reachable from it. -/
theorem component_spec (hG : IsGraph edges sourceCount) {start : ℕ} {seen : Node → Bool}
    (hstart : start < edges.length) (hclosed : Closed (neighbours edges) seen)
    (hseen : seen (true, start) = false) :
    IsComponent edges start (component start edges sourceCount seen).1 ∧
      (∀ y, (component start edges sourceCount seen).2 y = true ↔
        seen y = true ∨ Reach (neighbours edges) (true, start) y) ∧
      Closed (neighbours edges) (component start edges sourceCount seen).2 := by
  have hfuel : (allNodes edges sourceCount).length < edges.length + sourceCount + 1 := by
    simp [allNodes]
  obtain ⟨hnodup, hmem, hsee, hclosed'⟩ := searchFrom_spec neighbours_symm
    (fun y hy => mem_allNodes_of_reach hG hstart hy) hfuel hclosed hseen
  refine ⟨⟨fun c => ?_, fun c => ?_, nodup_side hnodup, nodup_side hnodup, pairwise_side,
    pairwise_side⟩, hsee, hclosed'⟩
  · exact mem_side.trans (hmem _)
  · exact mem_side.trans (hmem _)

/-- A component contains both ends of the edges of its candidates. -/
theorem IsComponent.mem_of_rawAt {start : ℕ} {comp : List ℕ × List ℕ}
    (h : IsComponent edges start comp) {c s : ℕ} (hc : c ∈ comp.1) (hraw : rawAt edges c s ≠ none) :
    s ∈ comp.2 :=
  (h.mem_sources s).mpr (((h.mem_candidates c).mp hc).tail (mem_neighbours_true.mpr hraw))

end

/-! ### The pairs of a component -/

/-- The candidate and the source of an entry of `pairs`. -/
def ends (pair : ℕ × ℕ × ℕ) : ℕ × ℕ := (pair.1, pair.2.1)

/-- The pairs as a set of edges. -/
def edgeSet (pairs : List (ℕ × ℕ × ℕ)) : Finset (ℕ × ℕ) := (pairs.map ends).toFinset

theorem edgeSet_append (pairs pairs' : List (ℕ × ℕ × ℕ)) :
    edgeSet (pairs ++ pairs') = edgeSet pairs ∪ edgeSet pairs' := by
  simp [edgeSet]

section

variable {policy : MatchingPolicy} {candidates : List TorrentFile} {edges : Edges}
variable {comp : List ℕ × List ℕ} {sourceCount start : ℕ}

theorem rawAt_of_pairWeight {c s : ℕ} (h : pairWeight policy candidates edges c s ≠ none) :
    rawAt edges c s ≠ none := by
  intro hraw
  simp [pairWeight, hraw] at h

theorem pairWeight_of_rawAt (hlen : edges.length = candidates.length) {c s : ℕ}
    (h : rawAt edges c s ≠ none) : pairWeight policy candidates edges c s ≠ none := by
  have hc := rawAt_lt h
  rw [hlen] at hc
  obtain ⟨v, hv⟩ := Option.ne_none_iff_exists'.mp h
  simp [pairWeight, List.getElem?_eq_getElem hc, hv]

theorem pairWeight_pos (hG : IsGraph edges sourceCount) (c s v : ℕ)
    (h : pairWeight policy candidates edges c s = some v) : 0 < v := by
  obtain ⟨file, -, h⟩ := Option.bind_eq_some_iff.mp h
  obtain ⟨value, hraw, rfl⟩ := Option.map_eq_some_iff.mp h
  have := hG.pos _ _ _ hraw
  unfold edgeWeight
  omega

theorem weightAt_componentWeights (r k : ℕ) :
    weightAt (componentWeights policy candidates edges comp) r k =
      if r < comp.1.length ∧ k < comp.2.length then
        pairWeight policy candidates edges (comp.1.getD r 0) (comp.2.getD k 0)
      else none := by
  unfold weightAt componentWeights
  by_cases hr : r < comp.1.length
  · rw [List.getD_eq_getElem (comp.1.map _) _ (by simpa using hr), List.getElem_map]
    by_cases hk : k < comp.2.length
    · rw [List.getD_eq_getElem (comp.2.map _) _ (by simpa using hk), List.getElem_map,
        if_pos ⟨hr, hk⟩, List.getD_eq_getElem _ _ hr, List.getD_eq_getElem _ _ hk]
    · rw [List.getD_eq_default _ _ (by simpa using hk), if_neg fun h => hk h.2]
  · rw [List.getD_eq_default (comp.1.map _) _ (by simpa using hr), if_neg fun h => hr h.1]
    rfl

theorem exists_getD_eq {l : List ℕ} {x : ℕ} (h : x ∈ l) : ∃ i < l.length, l.getD i 0 = x := by
  obtain ⟨i, hi, rfl⟩ := List.getElem_of_mem h
  exact ⟨i, hi, List.getD_eq_getElem _ _ hi⟩

theorem getD_inj {l : List ℕ} (hl : l.Nodup) {i j : ℕ} (hi : i < l.length) (hj : j < l.length)
    (h : l.getD i 0 = l.getD j 0) : i = j := by
  rw [List.getD_eq_getElem _ _ hi, List.getD_eq_getElem _ _ hj] at h
  exact (hl.getElem_inj_iff).mp h

/-- The positions in a component name the edges of its candidates. -/
theorem relabel_component (h : IsComponent edges start comp) :
    Relabel (comp.1.getD · 0) (comp.2.getD · 0)
      (weightAt (componentWeights policy candidates edges comp))
      (restrict (pairWeight policy candidates edges) fun c => decide (c ∈ comp.1)) := by
  have hlt : ∀ {r k}, weightAt (componentWeights policy candidates edges comp) r k ≠ none →
      r < comp.1.length ∧ k < comp.2.length := fun {r k} hw => by
    rw [weightAt_componentWeights] at hw
    by_contra hn
    rw [if_neg hn] at hw
    exact hw rfl
  refine ⟨fun r k hw => ?_, fun c s hw => ?_, fun r k r₁ k₁ hw hw₁ heq => ?_,
    fun r k r₁ k₁ hw hw₁ heq => ?_⟩
  · have hmem : comp.1.getD r 0 ∈ comp.1 := by
      rw [List.getD_eq_getElem _ _ (hlt hw).1]
      exact List.getElem_mem _
    rw [weightAt_componentWeights, if_pos (hlt hw), restrict_of _ _ (by simpa using hmem)]
  · obtain ⟨hc, hw⟩ := restrict_ne_none.mp hw
    have hc : c ∈ comp.1 := by simpa using hc
    obtain ⟨r, hr, hrc⟩ := exists_getD_eq hc
    obtain ⟨k, hk, hks⟩ := exists_getD_eq (h.mem_of_rawAt hc (rawAt_of_pairWeight hw))
    refine ⟨r, k, hrc, hks, ?_⟩
    rw [weightAt_componentWeights, if_pos ⟨hr, hk⟩, hrc, hks]
    exact hw
  · exact getD_inj h.nodup_candidates (hlt hw).1 (hlt hw₁).1 heq
  · exact getD_inj h.nodup_sources (hlt hw).2 (hlt hw₁).2 heq

theorem length_of_mem_componentWeights :
    ∀ row ∈ componentWeights policy candidates edges comp, row.length = comp.2.length := by
  intro row hrow
  obtain ⟨c, -, rfl⟩ := List.mem_map.mp hrow
  simp

theorem headD_componentWeights (h : comp.1 ≠ []) :
    ((componentWeights policy candidates edges comp).headD []).length = comp.2.length := by
  obtain ⟨c, cs, hcs⟩ := List.exists_cons_of_ne_nil h
  simp [componentWeights, hcs]

theorem IsComponent.ne_nil (h : IsComponent edges start comp) : comp.1 ≠ [] := by
  have hmem := (h.mem_candidates start).mpr Relation.ReflTransGen.refl
  exact List.ne_nil_of_mem hmem

/-- The selected pairs, named by candidates and sources. -/
def selected (policy : MatchingPolicy) (candidates : List TorrentFile) (edges : Edges)
    (comp : List ℕ × List ℕ) : Finset (ℕ × ℕ) :=
  (optimalAssignment (componentWeights policy candidates edges comp) none).2.toFinset.image
    (Prod.map (comp.1.getD · 0) (comp.2.getD · 0))

theorem ban_none (w : ℕ → ℕ → Option ℕ) : ban w none = w := by
  funext i j
  simp [ban]

theorem optimal_componentWeights (policy : MatchingPolicy) (candidates : List TorrentFile)
    (h : IsComponent edges start comp) (banned : Option (ℕ × ℕ)) :
    IsHeaviest (ban (weightAt (componentWeights policy candidates edges comp)) banned)
      (optimalAssignment (componentWeights policy candidates edges comp) banned).2.toFinset :=
  optimalAssignment_isHeaviest banned (headD_componentWeights h.ne_nil)
    length_of_mem_componentWeights

theorem selected_isHeaviest (policy : MatchingPolicy) (candidates : List TorrentFile)
    (h : IsComponent edges start comp) :
    IsHeaviest (restrict (pairWeight policy candidates edges) fun c => decide (c ∈ comp.1))
      (selected policy candidates edges comp) := by
  refine (relabel_component h).isHeaviest_image ?_
  have := optimal_componentWeights policy candidates h none
  rwa [ban_none] at this

/-- The ambiguity test of a component finds out whether there is a second heaviest matching. -/
theorem ambiguous_iff (policy : MatchingPolicy) (candidates : List TorrentFile)
    (hG : IsGraph edges sourceCount) (h : IsComponent edges start comp) :
    (optimalAssignment (componentWeights policy candidates edges comp) none).2.any (fun pair =>
        (optimalAssignment (componentWeights policy candidates edges comp) (some pair)).1 =
          (optimalAssignment (componentWeights policy candidates edges comp) none).1) = true ↔
      ∃ N, IsHeaviest (restrict (pairWeight policy candidates edges) fun c =>
        decide (c ∈ comp.1)) N ∧
        N ≠ selected policy candidates edges comp := by
  set weights := componentWeights policy candidates edges comp with hweights
  have hbest : IsHeaviest (weightAt weights) (optimalAssignment weights none).2.toFinset := by
    have := optimal_componentWeights policy candidates h none
    rwa [ban_none] at this
  have htotal : ∀ banned, (optimalAssignment weights banned).1 =
      weight (ban (weightAt weights) banned) (optimalAssignment weights banned).2.toFinset :=
    fun banned =>
      optimalAssignment_total (headD_componentWeights h.ne_nil) length_of_mem_componentWeights
  have hpos : ∀ r k v, weightAt weights r k = some v → 0 < v := by
    intro r k v hv
    rw [hweights, weightAt_componentWeights] at hv
    split_ifs at hv
    exact pairWeight_pos hG _ _ _ hv
  rw [selected, (relabel_component h).exists_ne_iff hbest,
    ← hbest.exists_banned_iff hpos (fun e _ =>
      optimal_componentWeights policy candidates h (some e))]
  simp only [List.any_eq_true, decide_eq_true_eq, List.mem_toFinset, ← hweights, htotal, ban_none]

/-- **A component** either has a second heaviest matching, or its pairs are the only one. -/
theorem assignComponent_spec (policy : MatchingPolicy) (candidates : List TorrentFile)
    (hG : IsGraph edges sourceCount) (h : IsComponent edges start comp) :
    (assignComponent policy candidates edges comp = .error .ambiguous ∧
      ∃ M N, IsHeaviest (restrict (pairWeight policy candidates edges) fun c =>
        decide (c ∈ comp.1)) M ∧
        IsHeaviest (restrict (pairWeight policy candidates edges) fun c => decide (c ∈ comp.1)) N ∧
        M ≠ N) ∨
    ∃ pairs, assignComponent policy candidates edges comp = .ok pairs ∧
      IsUniqueHeaviest (restrict (pairWeight policy candidates edges) fun c => decide (c ∈ comp.1))
        (edgeSet pairs) ∧
      (pairs.map ends).Nodup ∧ ∀ p ∈ pairs, rawAt edges p.1 p.2.1 = some p.2.2 := by
  have hheavy := selected_isHeaviest policy candidates h
  have hamb := ambiguous_iff policy candidates hG h
  unfold assignComponent
  simp only
  split_ifs with hany
  · obtain ⟨N, hN, hne⟩ := hamb.mp hany
    exact .inl ⟨rfl, N, _, hN, hheavy, hne⟩
  · refine .inr ⟨_, rfl, ?_, ?_, fun p hp => ?_⟩
    · have hset : edgeSet ((optimalAssignment (componentWeights policy candidates edges comp)
          none).2.map fun pair => (comp.1.getD pair.1 0, comp.2.getD pair.2 0,
            (rawAt edges (comp.1.getD pair.1 0) (comp.2.getD pair.2 0)).getD 0)) =
          selected policy candidates edges comp := by
        ext e
        simp [edgeSet, selected, ends]
      rw [hset]
      refine ⟨hheavy, fun N hN => ?_⟩
      by_contra hne
      exact hany (hamb.mpr ⟨N, hN, hne⟩)
    · rw [List.map_map]
      refine optimalAssignment_nodup.map_on fun e he e₁ he₁ heq => ?_
      have hedge := (optimal_componentWeights policy candidates h none).edge
      rw [ban_none] at hedge
      exact (relabel_component h).inj (hedge e (List.mem_toFinset.mpr he))
        (hedge e₁ (List.mem_toFinset.mpr he₁)) heq
    · obtain ⟨e, he, rfl⟩ := List.mem_map.mp hp
      have hedge := hheavy.edge _ (Finset.mem_image_of_mem _ (List.mem_toFinset.mpr he))
      obtain ⟨v, hv⟩ := Option.ne_none_iff_exists'.mp
        (rawAt_of_pairWeight (restrict_ne_none.mp hedge).2)
      simp only [Prod.map_fst, Prod.map_snd] at hv
      simp only [hv, Option.getD_some]

end

/-! ### The loop over the components -/

section

variable {policy : MatchingPolicy} {candidates : List TorrentFile} {edges : Edges}
variable {sourceCount : ℕ}

/-- What the loop keeps: its pairs are the only heaviest matching of the candidates it has seen. -/
structure Assigned (policy : MatchingPolicy) (candidates : List TorrentFile) (edges : Edges)
    (done : List ℕ) (s : Loop) : Prop where
  closed : Closed (neighbours edges) s.seen
  done : ∀ c ∈ done, ∀ j, rawAt edges c j ≠ none → s.seen (true, c) = true
  heaviest : IsUniqueHeaviest
    (restrict (pairWeight policy candidates edges) fun c => s.seen (true, c)) (edgeSet s.pairs)
  nodup : (s.pairs.map ends).Nodup
  raw : ∀ p ∈ s.pairs, rawAt edges p.1 p.2.1 = some p.2.2

theorem isMatching_restrict_none {M : Finset (ℕ × ℕ)}
    (h : IsMatching (restrict (pairWeight policy candidates edges) fun _ => false) M) : M = ∅ :=
  Finset.eq_empty_of_forall_notMem fun e he => by simpa using (restrict_ne_none.mp (h.edge e he)).1

theorem assigned_initialLoop : Assigned policy candidates edges [] initialLoop where
  closed x hx := by cases hx
  done := by simp
  heaviest := by
    refine ⟨⟨⟨?_, ?_, ?_⟩, fun N hN => ?_⟩, fun N hN => isMatching_restrict_none hN.toIsMatching⟩
    · simp [edgeSet, initialLoop]
    · simp [edgeSet, initialLoop]
    · simp [edgeSet, initialLoop]
    · rw [isMatching_restrict_none hN]
      exact le_rfl
  nodup := by simp [initialLoop]
  raw := by simp [initialLoop]

/-- The nodes seen and the component of an unseen candidate have no edge in common. -/
theorem separated_component (policy : MatchingPolicy) (candidates : List TorrentFile) {start : ℕ}
    {comp : List ℕ × List ℕ} {seen : Node → Bool} (h : IsComponent edges start comp)
    (hclosed : Closed (neighbours edges) seen) (hstart : seen (true, start) = false) :
    Separated (pairWeight policy candidates edges) (fun c => seen (true, c))
      (fun c => decide (c ∈ comp.1)) := by
  have hunseen : ∀ y, Reach (neighbours edges) (true, start) y → seen y = false := by
    intro y hy
    induction hy with
    | refl => exact hstart
    | @tail x z _ hxz ih =>
      by_contra hz
      have := hclosed z (by simpa using hz) x (neighbours_symm _ _ hxz)
      rw [ih] at this
      cases this
  intro i j i₁ j₁ hi hi₁ hw hw₁
  have hi₁ : i₁ ∈ comp.1 := by simpa using hi₁
  have hi : seen (true, i) = true := hi
  constructor
  · rintro rfl
    rw [hunseen _ ((h.mem_candidates i).mp hi₁)] at hi
    cases hi
  · rintro rfl
    have hj := hclosed _ hi _ (mem_neighbours_true.mpr (rawAt_of_pairWeight hw))
    rw [hunseen _ ((h.mem_sources j).mp (h.mem_of_rawAt hi₁ (rawAt_of_pairWeight hw₁)))] at hj
    cases hj

theorem rawAt_eq_none_of_isEmpty {c j : ℕ} (h : (edges.getD c []).isEmpty = true) :
    rawAt edges c j = none := by
  rw [rawAt, List.isEmpty_iff.mp h]
  rfl

/-- What an iteration that goes on has done. -/
theorem visit_ok {s s' : Loop} {start : ℕ}
    (h : visit policy candidates edges sourceCount s start = .ok s') :
    (s' = s ∧ (s.seen (true, start) = true ∨ (edges.getD start []).isEmpty = true)) ∨
    ∃ pairs, s.seen (true, start) = false ∧ (edges.getD start []).isEmpty = false ∧
      assignComponent policy candidates edges (component start edges sourceCount s.seen).1 =
        .ok pairs ∧
      s'.seen = (component start edges sourceCount s.seen).2 ∧ s'.pairs = s.pairs ++ pairs := by
  unfold visit at h
  simp only at h
  split_ifs at h with hskip hfiles hops
  · left
    exact ⟨(Except.ok.inj h).symm, by simpa using hskip⟩
  · right
    simp only [Bool.or_eq_true, not_or, Bool.not_eq_true] at hskip
    cases hpairs : assignComponent policy candidates edges
        (component start edges sourceCount s.seen).1 with
    | error e => rw [hpairs] at h; cases h
    | ok pairs =>
      rw [hpairs] at h
      obtain rfl := Except.ok.inj h
      exact ⟨pairs, hskip.1, hskip.2, rfl, rfl, rfl⟩

theorem Assigned.visit (hG : IsGraph edges sourceCount) {done : List ℕ} {s s' : Loop} {start : ℕ}
    (hs : Assigned policy candidates edges done s)
    (h : visit policy candidates edges sourceCount s start = .ok s') :
    Assigned policy candidates edges (done ++ [start]) s' := by
  rcases visit_ok h with ⟨rfl, hskip⟩ | ⟨pairs, hseen, hnonempty, hpairs, hs', hpairs'⟩
  · refine ⟨hs.closed, fun c hc j hraw => ?_, hs.heaviest, hs.nodup, hs.raw⟩
    rcases List.mem_append.mp hc with hc | hc
    · exact hs.done c hc j hraw
    · rw [List.mem_singleton.mp hc] at hraw ⊢
      rcases hskip with hskip | hskip
      · exact hskip
      · exact absurd (rawAt_eq_none_of_isEmpty hskip) hraw
  · have hlt : start < edges.length := by
      by_contra hge
      rw [List.getD_eq_default _ _ (by omega)] at hnonempty
      cases hnonempty
    obtain ⟨hcomp, hsee, hclosed⟩ := component_spec hG hlt hs.closed hseen
    rcases assignComponent_spec policy candidates hG hcomp with
      ⟨herr, -⟩ | ⟨pairs₁, hok, hunique, hnodup, hraw⟩
    · rw [herr] at hpairs; cases hpairs
    obtain rfl : pairs₁ = pairs := by rw [hok] at hpairs; exact Except.ok.inj hpairs
    have hsep := separated_component policy candidates hcomp hs.closed hseen
    have hunion := hsep.isUniqueHeaviest_union hs.heaviest hunique
    have hrows : (fun c => s.seen (true, c) ||
        decide (c ∈ (component start edges sourceCount s.seen).1.1)) = fun c =>
          s'.seen (true, c) := by
      funext c
      rw [hs', Bool.eq_iff_iff, hsee, Bool.or_eq_true, decide_eq_true_eq, hcomp.mem_candidates]
    rw [hrows] at hunion
    refine ⟨hs' ▸ hclosed, fun c hc j hr => ?_, ?_, ?_, fun p hp => ?_⟩
    · rw [hs', hsee]
      rcases List.mem_append.mp hc with hc | hc
      · exact .inl (hs.done c hc j hr)
      · rw [List.mem_singleton.mp hc]
        exact .inr .refl
    · rw [hpairs', edgeSet_append]
      exact hunion
    · rw [hpairs', List.map_append]
      refine hs.nodup.append hnodup fun e he he' => ?_
      exact Finset.disjoint_left.mp
        (hsep.disjoint hs.heaviest.toIsMatching hunique.toIsMatching)
        (List.mem_toFinset.mpr he) (List.mem_toFinset.mpr he')
    · rw [hpairs'] at hp
      rcases List.mem_append.mp hp with hp | hp
      · exact hs.raw p hp
      · exact hraw p hp

/-- **The loop** over the components ends with the only heaviest matching of the graph. -/
theorem assignEdges_ok (hG : IsGraph edges sourceCount) (hlen : edges.length = candidates.length)
    {s : Loop} (h : assignEdges policy candidates edges sourceCount = .ok s) :
    IsUniqueHeaviest (pairWeight policy candidates edges) (edgeSet s.pairs) ∧
      (s.pairs.map ends).Nodup ∧ ∀ p ∈ s.pairs, rawAt edges p.1 p.2.1 = some p.2.2 := by
  have hs := Lib.Loop.foldlM_invariant (P := Assigned policy candidates edges)
    (fun done c b b' hb hv => hb.visit hG hv) _ [] _ _ assigned_initialLoop h
  rw [List.nil_append] at hs
  have hall : restrict (pairWeight policy candidates edges) (fun c => s.seen (true, c)) =
      pairWeight policy candidates edges := by
    funext c j
    by_cases hw : pairWeight policy candidates edges c j = none
    · simp [restrict, hw]
    · have hraw := rawAt_of_pairWeight hw
      have hc := rawAt_lt hraw
      exact restrict_of _ _ (hs.done c (List.mem_range.mpr (hlen ▸ hc)) j hraw)
  exact ⟨hall ▸ hs.heaviest, hs.nodup, hs.raw⟩

end

/-! ### The edges of the assignment -/

section

variable {policy : MatchingPolicy} {candidates : List TorrentFile} {sources : List SourceFile}
variable {score : TorrentFile → LocalSourceFile → Option ℕ}

/-- The edges of one candidate. -/
def candidateEdges (policy : MatchingPolicy) (sources : List SourceFile)
    (score : TorrentFile → LocalSourceFile → Option ℕ) (candidate : TorrentFile) : List (ℕ × ℕ) :=
  (candidateBucket policy sources candidate).filterMap fun index =>
    (scoreAt sources score candidate index).map (index, ·)

/-- The edges of all candidates. -/
def allEdges (policy : MatchingPolicy) (candidates : List TorrentFile) (sources : List SourceFile)
    (score : TorrentFile → LocalSourceFile → Option ℕ) : Edges :=
  candidates.map (candidateEdges policy sources score)

theorem foldlM_pushEdge (candidate : TorrentFile) : ∀ (l : List ℕ) (acc : List (ℕ × ℕ) × ℕ),
    acc.2 ≤ policy.maxCandidateEdges →
    l.foldlM (pushEdge policy sources score candidate) acc =
      let row := l.filterMap fun index => (scoreAt sources score candidate index).map (index, ·)
      if acc.2 + row.length > policy.maxCandidateEdges then .error .budgetExceeded
      else .ok (acc.1 ++ row, acc.2 + row.length)
  | [], acc, hacc => by
    simp only [List.foldlM_nil, List.filterMap_nil, List.length_nil, Nat.add_zero, List.append_nil,
      if_neg (Nat.not_lt.mpr hacc)]
    rfl
  | index :: l, acc, hacc => by
    rw [List.foldlM_cons, pushEdge]
    cases hscore : scoreAt sources score candidate index with
    | none =>
      simp only [List.filterMap_cons, hscore, Option.map_none]
      exact foldlM_pushEdge candidate l acc hacc
    | some value =>
      simp only [List.filterMap_cons, hscore, Option.map_some, List.length_cons]
      split_ifs with h h' h'
      · rfl
      · omega
      · refine (foldlM_pushEdge candidate l _ (Nat.not_lt.mp h)).trans ?_
        exact if_pos (by simp only; omega)
      · refine (foldlM_pushEdge candidate l _ (Nat.not_lt.mp h)).trans ?_
        refine (if_neg (by simp only; omega)).trans ?_
        simp only [List.append_assoc, List.singleton_append, Nat.add_assoc, Nat.add_comm 1]

theorem foldlM_pushCandidate : ∀ (l : List TorrentFile) (acc : Edges × ℕ),
    acc.2 ≤ policy.maxCandidateEdges →
    l.foldlM (pushCandidate policy sources score) acc =
      let rows := l.map (candidateEdges policy sources score)
      if acc.2 + (rows.map List.length).sum > policy.maxCandidateEdges then .error .budgetExceeded
      else .ok (acc.1 ++ rows, acc.2 + (rows.map List.length).sum)
  | [], acc, hacc => by
    simp only [List.foldlM_nil, List.map_nil, List.sum_nil, Nat.add_zero, List.append_nil,
      if_neg (Nat.not_lt.mpr hacc)]
    rfl
  | candidate :: l, acc, hacc => by
    rw [List.foldlM_cons, pushCandidate, foldlM_pushEdge candidate _ _ hacc]
    simp only [List.map_cons, List.sum_cons]
    change (Except.map _ (if acc.2
      + (candidateEdges policy sources score candidate).length > _ then _
      else Except.ok ([] ++ candidateEdges policy sources score candidate, _))).bind _ = _
    split_ifs with h h' h'
    · rfl
    · omega
    · refine (foldlM_pushCandidate l _ (Nat.not_lt.mp h)).trans ?_
      exact if_pos (by simp only; unfold candidateEdges at *; omega)
    · refine (foldlM_pushCandidate l _ (Nat.not_lt.mp h)).trans ?_
      refine (if_neg (by simp only; unfold candidateEdges at *; omega)).trans ?_
      simp [candidateEdges, Nat.add_assoc]

/-- The edges are within the budget if and only if their number is. -/
theorem collectEdges_eq : collectEdges policy sources score candidates =
    if ((allEdges policy candidates sources score).map List.length).sum > policy.maxCandidateEdges
        then
      .error .budgetExceeded
    else .ok (allEdges policy candidates sources score) := by
  rw [collectEdges, foldlM_pushCandidate _ _ (Nat.zero_le _)]
  simp only [Nat.zero_add, List.nil_append, allEdges]
  rw [apply_ite (Except.map Prod.fst)]
  rfl

theorem length_allEdges : (allEdges policy candidates sources score).length =
    candidates.length := by
  simp [allEdges]

/-- The scores add up to no more than the largest score times the number of edges. -/
theorem sum_scores_le (policy : MatchingPolicy) (candidates : List TorrentFile)
    (sources : List SourceFile) {maxScore : ℕ}
    (hscore : ∀ file source v, score file source = some v → v ≤ maxScore) :
    ((allEdges policy candidates sources score).flatten.map Prod.snd).sum ≤
      ((allEdges policy candidates sources score).map List.length).sum * maxScore := by
  have hmem : ∀ v ∈ (allEdges policy candidates sources score).flatten.map Prod.snd,
      v ≤ maxScore := by
    intro v hv
    obtain ⟨edge, hedge, rfl⟩ := List.mem_map.mp hv
    obtain ⟨row, hrow, hedge⟩ := List.mem_flatten.mp hedge
    obtain ⟨file, -, rfl⟩ := List.mem_map.mp hrow
    obtain ⟨s, -, hs⟩ := List.mem_filterMap.mp hedge
    obtain ⟨value, hvalue, rfl⟩ := Option.map_eq_some_iff.mp hs
    obtain ⟨source, -, hv⟩ := Option.bind_eq_some_iff.mp hvalue
    exact hscore _ _ _ hv
  have hle := List.sum_le_card_nsmul _ maxScore hmem
  rwa [List.length_map, List.length_flatten, smul_eq_mul] at hle

theorem mem_sourceBucket {key : BucketKey} {s : ℕ} : s ∈ sourceBucket policy sources key ↔
    ∃ source, sources[s]? = some source ∧
      bucket source.2.size source.2.path (primaryPath policy source.2.path) = key := by
  simp only [sourceBucket, List.mem_filter, List.mem_range, Option.any_eq_true, decide_eq_true_eq]
  constructor
  · rintro ⟨-, h⟩; exact h
  · rintro ⟨source, hs, hkey⟩
    exact ⟨(List.getElem?_eq_some_iff.mp hs).1, source, hs, hkey⟩

theorem nodup_sourceBucket {key : BucketKey} : (sourceBucket policy sources key).Nodup :=
  List.nodup_range.filter _

theorem lookup_filterMap {f : ℕ → Option ℕ} {s : ℕ} : ∀ l : List ℕ,
    (l.filterMap fun i => (f i).map (i, ·)).lookup s = if s ∈ l then f s else none
  | [] => rfl
  | i :: l => by
    have ih := lookup_filterMap (f := f) (s := s) l
    cases hi : f i with
    | none =>
      simp only [List.filterMap_cons, hi, Option.map_none, ih, List.mem_cons]
      by_cases hs : s = i
      · simp [hs, hi]
      · simp [hs]
    | some v =>
      simp only [List.filterMap_cons, hi, Option.map_some, List.lookup_cons, ih, List.mem_cons]
      by_cases hs : s = i
      · simp [hs, hi]
      · simp [beq_eq_false_iff_ne.mpr hs, hs]

/-- An edge joins files of one bucket that have a score. -/
theorem rawAt_allEdges (c s : ℕ) : rawAt (allEdges policy candidates sources score) c s =
    (candidates[c]?).bind fun file =>
      if s ∈ candidateBucket policy sources file then scoreAt sources score file s else none := by
  unfold rawAt allEdges
  by_cases hc : c < candidates.length
  · rw [List.getD_eq_getElem _ _ (by simpa using hc), List.getElem_map,
      List.getElem?_eq_getElem hc, Option.bind_some]
    exact lookup_filterMap _
  · rw [List.getD_eq_default _ _ (by simpa using hc), List.getElem?_eq_none (by omega)]
    rfl

theorem isGraph_allEdges (policy : MatchingPolicy) (candidates : List TorrentFile)
    (sources : List SourceFile) (hpos : ∀ file source v, score file source = some v → 0 < v) :
    IsGraph (allEdges policy candidates sources score) sources.length := by
  refine ⟨fun c s v h => ?_, fun c s v h => ?_⟩
  all_goals
    rw [rawAt_allEdges] at h
    obtain ⟨file, -, h⟩ := Option.bind_eq_some_iff.mp h
    split_ifs at h with hmem
    obtain ⟨source, hs, hv⟩ := Option.bind_eq_some_iff.mp h
  · exact (List.getElem?_eq_some_iff.mp hs).1
  · exact hpos _ _ _ hv

/-- The weights of the assignment of two lists of files. -/
abbrev fileWeight (policy : MatchingPolicy) (candidates : List TorrentFile)
    (sources : List SourceFile) (score : TorrentFile → LocalSourceFile → Option ℕ) :
    ℕ → ℕ → Option ℕ :=
  pairWeight policy candidates (allEdges policy candidates sources score)

theorem assignWith_ok_iff {pairs : List (ℕ × ℕ × ℕ)} :
    assignWith policy candidates sources score = .ok ⟨pairs, false⟩ ↔
      candidates.length ≤ policy.maxAssignmentFiles ∧
        sources.length ≤ policy.maxAssignmentFiles - candidates.length ∧
        ((allEdges policy candidates sources score).map List.length).sum ≤
          policy.maxCandidateEdges ∧
        ∃ s, assignEdges policy candidates (allEdges policy candidates sources score)
          sources.length = .ok s ∧ s.pairs = pairs := by
  unfold assignWith
  rw [collectEdges_eq]
  split_ifs with h₁ h₂ <;> simp only [false_iff, not_and]
  · intro h h'; omega
  · intro h h' h''; omega
  · push Not at h₁
    simp only [h₁, Nat.not_lt.mp h₂, true_and]
    split <;> simp_all

/-- **The assignment** is the only heaviest matching of the files. -/
theorem assignWith_ok (hpos : ∀ file source v, score file source = some v → 0 < v)
    {pairs : List (ℕ × ℕ × ℕ)}
    (h : assignWith policy candidates sources score = .ok ⟨pairs, false⟩) :
    IsUniqueHeaviest (fileWeight policy candidates sources score) (edgeSet pairs) ∧
      (pairs.map ends).Nodup ∧
      ∀ p ∈ pairs, rawAt (allEdges policy candidates sources score) p.1 p.2.1 = some p.2.2 := by
  obtain ⟨-, -, -, s, hs, rfl⟩ := assignWith_ok_iff.mp h
  exact assignEdges_ok (isGraph_allEdges _ _ _ hpos) length_allEdges hs

end

end Sporos.Matcher.Heaviest

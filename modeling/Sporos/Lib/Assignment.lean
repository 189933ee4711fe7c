import Mathlib.Tactic
import Mathlib.Algebra.BigOperators.Group.Finset.Basic
import Mathlib.Algebra.Order.BigOperators.Group.Finset

/-! # The assignment problem

Facts about optimal assignments, over arbitrary types. The first is weak duality for injective
assignments of rows to columns: potentials that are feasible, and tight on the assigned pairs,
certify that an assignment is cheapest (`sum_le_of_potentials`). The second half is about matchings
of a weighted bipartite graph: a heaviest matching is the only one if and only if the optimum drops
whenever one of its edges is banned (`IsHeaviest.exists_banned_iff`), and heaviest matchings are
carried along a relabelling of rows and columns (`Relabel.isHeaviest_image`). A matching of heavy
edges that all others touch is the only heaviest one (`StandsOut.isUniqueHeaviest`). A weight may
stand for a value in another order, such as three numbers packed in one (`packed_le_iff`): the
heaviest matchings are then those of the largest value (`isHeaviest_iff_isBest`). -/

namespace Sporos.Lib.Assignment

/-! ### Potentials -/

section Potentials

variable {ι κ : Type*} [Fintype ι] [Fintype κ] [DecidableEq κ]

/-- **Weak duality**: an injective assignment on tight pairs is cheapest, if the column potentials
are not positive and vanish on the columns it leaves free. -/
theorem sum_le_of_potentials {c : ι → κ → ℤ} {u : ι → ℤ} {v : κ → ℤ} {a b : ι → κ}
    (feasible : ∀ i j, u i + v j ≤ c i j) (nonpos : ∀ j, v j ≤ 0)
    (tight : ∀ i, c i (a i) = u i + v (a i)) (free : ∀ j, (∀ i, a i ≠ j) → v j = 0)
    (ha : Function.Injective a) (hb : Function.Injective b) :
    ∑ i, c i (a i) ≤ ∑ i, c i (b i) := by
  have himage : ∀ f : ι → κ, Function.Injective f →
      ∑ i, v (f i) = ∑ j ∈ Finset.univ.image f, v j := fun f hf => by
    rw [Finset.sum_image fun x _ y _ h => hf h]
  have hall : ∑ j ∈ Finset.univ.image a, v j = ∑ j, v j := by
    refine Finset.sum_subset (Finset.subset_univ _) fun j _ hj => free j fun i hi => hj ?_
    exact Finset.mem_image.mpr ⟨i, Finset.mem_univ i, hi⟩
  have hsub : ∑ j, v j ≤ ∑ j ∈ Finset.univ.image b, v j := by
    rw [← Finset.sum_sdiff (Finset.subset_univ (Finset.univ.image b))]
    have := Finset.sum_nonpos fun j (_ : j ∈ Finset.univ \ Finset.univ.image b) => nonpos j
    omega
  calc ∑ i, c i (a i) = ∑ i, u i + ∑ i, v (a i) := by
        rw [← Finset.sum_add_distrib]; exact Finset.sum_congr rfl fun i _ => tight i
    _ = ∑ i, u i + ∑ j, v j := by rw [himage a ha, hall]
    _ ≤ ∑ i, u i + ∑ i, v (b i) := by rw [himage b hb]; omega
    _ = ∑ i, (u i + v (b i)) := by rw [Finset.sum_add_distrib]
    _ ≤ ∑ i, c i (b i) := Finset.sum_le_sum fun i _ => feasible i (b i)

end Potentials

/-! ### Matchings -/

section Matchings

variable {ι κ : Type*}

/-- A set of edges in which no row and no column occurs twice. -/
structure IsMatching (w : ι → κ → Option ℕ) (M : Finset (ι × κ)) : Prop where
  edge : ∀ e ∈ M, w e.1 e.2 ≠ none
  row : ∀ e ∈ M, ∀ f ∈ M, e.1 = f.1 → e = f
  column : ∀ e ∈ M, ∀ f ∈ M, e.2 = f.2 → e = f

/-- The sum of the weights of some pairs. -/
def weight (w : ι → κ → Option ℕ) (M : Finset (ι × κ)) : ℕ := ∑ e ∈ M, (w e.1 e.2).getD 0

/-- A matching that no other matching outweighs. -/
structure IsHeaviest (w : ι → κ → Option ℕ) (M : Finset (ι × κ)) : Prop extends IsMatching w M where
  le : ∀ N, IsMatching w N → weight w N ≤ weight w M

theorem IsHeaviest.weight_eq {w : ι → κ → Option ℕ} {M N : Finset (ι × κ)} (hM : IsHeaviest w M)
    (hN : IsHeaviest w N) : weight w M = weight w N :=
  le_antisymm (hN.le M hM.toIsMatching) (hM.le N hN.toIsMatching)

theorem IsMatching.subset {w : ι → κ → Option ℕ} {M N : Finset (ι × κ)} (hM : IsMatching w M)
    (h : N ⊆ M) : IsMatching w N :=
  ⟨fun e he => hM.edge e (h he), fun e he f hf => hM.row e (h he) f (h hf),
    fun e he f hf => hM.column e (h he) f (h hf)⟩

/-- A matching has at most one edge in each row. -/
theorem IsMatching.sum_row_le {w : ι → κ → Option ℕ} {M : Finset (ι × κ)} (hM : IsMatching w M)
    {s : Finset ι} (hs : ∀ e ∈ M, e.1 ∈ s) (f : ι → ℕ) : ∑ e ∈ M, f e.1 ≤ ∑ i ∈ s, f i := by
  classical
  rw [← Finset.sum_image fun e he e' he' h => hM.row e he e' he' h]
  refine Finset.sum_le_sum_of_subset fun i hi => ?_
  obtain ⟨e, he, rfl⟩ := Finset.mem_image.mp hi
  exact hs e he

variable [DecidableEq ι] [DecidableEq κ]

/-- The graph without one edge. -/
def ban (w : ι → κ → Option ℕ) (banned : Option (ι × κ)) (i : ι) (j : κ) : Option ℕ :=
  if banned = some (i, j) then none else w i j

theorem weight_ban {w : ι → κ → Option ℕ} {e : ι × κ} {M : Finset (ι × κ)} (h : e ∉ M) :
    weight (ban w (some e)) M = weight w M := by
  refine Finset.sum_congr rfl fun f hf => ?_
  have hne : ¬some e = some (f.1, f.2) := by
    intro he
    exact h (by rw [Option.some.inj he]; exact hf)
  simp only [ban, if_neg hne]

theorem isMatching_ban_iff {w : ι → κ → Option ℕ} {e : ι × κ} {M : Finset (ι × κ)} :
    IsMatching (ban w (some e)) M ↔ IsMatching w M ∧ e ∉ M := by
  constructor
  · intro h
    refine ⟨⟨fun f hf hw => h.edge f hf ?_, h.row, h.column⟩, fun he => h.edge e he ?_⟩
    · simp only [ban, hw, ite_self]
    · simp [ban]
  · rintro ⟨h, he⟩
    refine ⟨fun f hf => ?_, h.row, h.column⟩
    have hne : ¬some e = some (f.1, f.2) := by
      intro hef
      exact he (by rw [Option.some.inj hef]; exact hf)
    simp only [ban, if_neg hne]
    exact h.edge f hf

/-- With positive weights, a matching is lighter than every matching it is part of. -/
theorem eq_of_subset_of_weight_le {w : ι → κ → Option ℕ} {M N : Finset (ι × κ)}
    (hpos : ∀ i j v, w i j = some v → 0 < v) (hN : IsMatching w N) (h : M ⊆ N)
    (hle : weight w N ≤ weight w M) : M = N := by
  refine Finset.Subset.antisymm h fun e he => ?_
  by_contra hM
  have hlt : weight w M < weight w N := by
    refine Finset.sum_lt_sum_of_subset h he hM ?_ fun _ _ _ => Nat.zero_le _
    obtain ⟨v, hv⟩ := Option.ne_none_iff_exists'.mp (hN.edge e he)
    rw [hv]
    exact hpos _ _ _ hv
  omega

/-- **Uniqueness**: with positive weights, a heaviest matching is not the only one if and only if
the optimum stays the same after one of its edges is banned. -/
theorem IsHeaviest.exists_banned_iff {w : ι → κ → Option ℕ} {M : Finset (ι × κ)}
    {alternative : ι × κ → Finset (ι × κ)} (hpos : ∀ i j v, w i j = some v → 0 < v)
    (hM : IsHeaviest w M) (halt : ∀ e ∈ M, IsHeaviest (ban w (some e)) (alternative e)) :
    (∃ e ∈ M, weight (ban w (some e)) (alternative e) = weight w M) ↔
      ∃ N, IsHeaviest w N ∧ N ≠ M := by
  constructor
  · rintro ⟨e, he, heq⟩
    obtain ⟨hmatch, hnot⟩ := isMatching_ban_iff.mp (halt e he).toIsMatching
    rw [weight_ban hnot] at heq
    refine ⟨alternative e, ⟨hmatch, fun N hN => ?_⟩, fun h => hnot (h ▸ he)⟩
    rw [heq]
    exact hM.le N hN
  · rintro ⟨N, hN, hne⟩
    have hsub : ¬M ⊆ N := fun h =>
      hne (eq_of_subset_of_weight_le hpos hN.toIsMatching h (hN.weight_eq hM).le).symm
    obtain ⟨e, heM, heN⟩ := Finset.not_subset.mp hsub
    refine ⟨e, heM, le_antisymm ?_ ?_⟩
    · obtain ⟨hmatch, hnot⟩ := isMatching_ban_iff.mp (halt e heM).toIsMatching
      rw [weight_ban hnot]
      exact hM.le _ hmatch
    · rw [hM.weight_eq hN, ← weight_ban heN]
      exact (halt e heM).le N (isMatching_ban_iff.mpr ⟨hN.toIsMatching, heN⟩)

theorem weight_union_le (w : ι → κ → Option ℕ) (M N : Finset (ι × κ)) :
    weight w (M ∪ N) ≤ weight w M + weight w N := by
  unfold weight
  rw [← Finset.sum_union_inter]
  exact Nat.le_add_right _ _

/-- **Exchange**: an edge is not heavier than the two edges of a heaviest matching that it would
replace. -/
theorem IsHeaviest.le_add_of_edge {w : ι → κ → Option ℕ} {M : Finset (ι × κ)}
    {e : ι × κ} {v a b : ℕ} (hM : IsHeaviest w M) (he : w e.1 e.2 = some v)
    (hrow : ∀ f ∈ M, f.1 = e.1 → (w f.1 f.2).getD 0 ≤ a)
    (hcolumn : ∀ f ∈ M, f.2 = e.2 → (w f.1 f.2).getD 0 ≤ b) : v ≤ a + b := by
  set K := M.filter fun f => f.1 ≠ e.1 ∧ f.2 ≠ e.2 with hK
  have hnot : e ∉ K := fun h => (Finset.mem_filter.mp h).2.1 rfl
  have hmatching : IsMatching w (insert e K) := by
    refine ⟨fun f hf => ?_, fun f hf g hg hfg => ?_, fun f hf g hg hfg => ?_⟩
    · rcases Finset.mem_insert.mp hf with rfl | hf
      · rw [he]; simp
      · exact hM.edge f (Finset.mem_of_mem_filter f hf)
    · rcases Finset.mem_insert.mp hf with rfl | hf <;> rcases Finset.mem_insert.mp hg with rfl | hg
      · rfl
      · exact absurd hfg.symm (Finset.mem_filter.mp hg).2.1
      · exact absurd hfg (Finset.mem_filter.mp hf).2.1
      · exact hM.row f (Finset.mem_of_mem_filter f hf) g (Finset.mem_of_mem_filter g hg) hfg
    · rcases Finset.mem_insert.mp hf with rfl | hf <;> rcases Finset.mem_insert.mp hg with rfl | hg
      · rfl
      · exact absurd hfg.symm (Finset.mem_filter.mp hg).2.2
      · exact absurd hfg (Finset.mem_filter.mp hf).2.2
      · exact hM.column f (Finset.mem_of_mem_filter f hf) g (Finset.mem_of_mem_filter g hg) hfg
  have hinsert : weight w (insert e K) = v + weight w K := by
    rw [weight, Finset.sum_insert hnot, he]; rfl
  have hsub : M ⊆ K ∪ (M.filter (fun f => f.1 = e.1) ∪ M.filter (fun f => f.2 = e.2)) := by
    intro f hf
    simp only [hK, Finset.mem_union, Finset.mem_filter, hf, true_and]
    tauto
  have hparts : weight w M ≤ weight w K +
      (weight w (M.filter fun f => f.1 = e.1) + weight w (M.filter fun f => f.2 = e.2)) :=
    (Finset.sum_le_sum_of_subset hsub).trans ((weight_union_le w _ _).trans
      (Nat.add_le_add_left (weight_union_le w _ _) _))
  have hone : ∀ (p : ι × κ → Prop) [DecidablePred p] (c : ℕ),
      (∀ f ∈ M, ∀ g ∈ M, p f → p g → f = g) → (∀ f ∈ M, p f → (w f.1 f.2).getD 0 ≤ c) →
      weight w (M.filter p) ≤ c := by
    intro p _ c heq hle
    rcases (M.filter p).eq_empty_or_nonempty with hempty | ⟨f, hf⟩
    · rw [hempty]; exact Nat.zero_le _
    · obtain ⟨hfM, hpf⟩ := Finset.mem_filter.mp hf
      have : M.filter p = {f} := by
        refine Finset.eq_singleton_iff_unique_mem.mpr ⟨hf, fun g hg => ?_⟩
        obtain ⟨hgM, hpg⟩ := Finset.mem_filter.mp hg
        exact heq g hgM f hfM hpg hpf
      rw [this, weight, Finset.sum_singleton]
      exact hle f hfM hpf
  have h₁ := hone (fun f => f.1 = e.1) a (fun f hf g hg hpf hpg =>
    hM.row f hf g hg (hpf.trans hpg.symm))
    hrow
  have h₂ := hone (fun f => f.2 = e.2) b
    (fun f hf g hg hpf hpg => hM.column f hf g hg (hpf.trans hpg.symm)) hcolumn
  have hle := hM.le _ hmatching
  omega

end Matchings

/-! ### Parts of a graph -/

section Parts

variable {ι κ : Type*}

/-- `M` is the only heaviest matching. -/
structure IsUniqueHeaviest (w : ι → κ → Option ℕ) (M : Finset (ι × κ)) : Prop
    extends IsHeaviest w M where
  eq : ∀ N, IsHeaviest w N → N = M

/-- The edges of the rows in `A`. -/
def restrict (w : ι → κ → Option ℕ) (A : ι → Bool) (i : ι) (j : κ) : Option ℕ :=
  if A i then w i j else none

variable {w : ι → κ → Option ℕ} {A B : ι → Bool} {M N : Finset (ι × κ)}

theorem restrict_of (i : ι) (j : κ) (h : A i = true) : restrict w A i j = w i j := if_pos h

theorem restrict_ne_none {i : ι} {j : κ} : restrict w A i j ≠ none ↔ A i = true ∧ w i j ≠ none := by
  unfold restrict
  split_ifs with h <;> simp [h]

theorem isMatching_restrict_iff :
    IsMatching (restrict w A) M ↔ IsMatching w M ∧ ∀ e ∈ M, A e.1 = true := by
  constructor
  · intro h
    exact ⟨⟨fun e he => (restrict_ne_none.mp (h.edge e he)).2, h.row, h.column⟩,
      fun e he => (restrict_ne_none.mp (h.edge e he)).1⟩
  · rintro ⟨h, hA⟩
    exact ⟨fun e he => restrict_ne_none.mpr ⟨hA e he, h.edge e he⟩, h.row, h.column⟩

theorem weight_restrict (h : ∀ e ∈ M, A e.1 = true) : weight (restrict w A) M = weight w M :=
  Finset.sum_congr rfl fun e he => by rw [restrict_of _ _ (h e he)]

/-- No row and no column has edges on both sides. -/
def Separated (w : ι → κ → Option ℕ) (A B : ι → Bool) : Prop :=
  ∀ i j i₁ j₁, A i = true → B i₁ = true → w i j ≠ none → w i₁ j₁ ≠ none → i ≠ i₁ ∧ j ≠ j₁

theorem Separated.symm (h : Separated w A B) : Separated w B A :=
  fun i j i₁ j₁ hA hB hw hw₁ => (h i₁ j₁ i j hB hA hw₁ hw).imp Ne.symm Ne.symm

theorem Separated.disjoint (h : Separated w A B) (hM : IsMatching (restrict w A) M)
    (hN : IsMatching (restrict w B) N) : Disjoint M N := by
  refine Finset.disjoint_left.mpr fun e hM' hN' => ?_
  have hA := restrict_ne_none.mp (hM.edge e hM')
  have hB := restrict_ne_none.mp (hN.edge e hN')
  exact (h e.1 e.2 e.1 e.2 hA.1 hB.1 hA.2 hB.2).1 rfl

/-- A graph with finitely many edges has a heaviest matching. -/
theorem exists_isHeaviest {E : Finset (ι × κ)} (hE : ∀ i j, w i j ≠ none → (i, j) ∈ E) :
    ∃ M, IsHeaviest w M := by
  classical
  have hempty : ∅ ∈ E.powerset.filter (IsMatching w) := by
    refine Finset.mem_filter.mpr ⟨Finset.empty_mem_powerset E, ?_, ?_, ?_⟩ <;> simp
  obtain ⟨M, hM, hbest⟩ :=
    Finset.exists_max_image (E.powerset.filter (IsMatching w)) (weight w) ⟨∅, hempty⟩
  refine ⟨M, (Finset.mem_filter.mp hM).2, fun N hN => hbest N (Finset.mem_filter.mpr ⟨?_, hN⟩)⟩
  exact Finset.mem_powerset.mpr fun e he => hE e.1 e.2 (hN.edge e he)

variable [DecidableEq ι] [DecidableEq κ]

theorem Separated.isMatching_union (h : Separated w A B) (hM : IsMatching (restrict w A) M)
    (hN : IsMatching (restrict w B) N) :
    IsMatching (restrict w fun i => A i || B i) (M ∪ N) := by
  obtain ⟨hM, hA⟩ := isMatching_restrict_iff.mp hM
  obtain ⟨hN, hB⟩ := isMatching_restrict_iff.mp hN
  refine isMatching_restrict_iff.mpr ⟨⟨fun e he => ?_, fun e he f hf heq => ?_,
    fun e he f hf heq => ?_⟩, fun e he => ?_⟩
  · rcases Finset.mem_union.mp he with he | he
    · exact hM.edge e he
    · exact hN.edge e he
  · rcases Finset.mem_union.mp he with he | he <;> rcases Finset.mem_union.mp hf with hf | hf
    · exact hM.row e he f hf heq
    · exact absurd heq (h _ _ _ _ (hA e he) (hB f hf) (hM.edge e he) (hN.edge f hf)).1
    · exact absurd heq (h.symm _ _ _ _ (hB e he) (hA f hf) (hN.edge e he) (hM.edge f hf)).1
    · exact hN.row e he f hf heq
  · rcases Finset.mem_union.mp he with he | he <;> rcases Finset.mem_union.mp hf with hf | hf
    · exact hM.column e he f hf heq
    · exact absurd heq (h _ _ _ _ (hA e he) (hB f hf) (hM.edge e he) (hN.edge f hf)).2
    · exact absurd heq (h.symm _ _ _ _ (hB e he) (hA f hf) (hN.edge e he) (hM.edge f hf)).2
    · exact hN.column e he f hf heq
  · rcases Finset.mem_union.mp he with he | he
    · simp [hA e he]
    · simp [hB e he]

/-- The weight of a union over two parts. -/
theorem Separated.weight_union (h : Separated w A B) (hM : IsMatching (restrict w A) M)
    (hN : IsMatching (restrict w B) N) :
    weight (restrict w fun i => A i || B i) (M ∪ N) =
      weight (restrict w A) M + weight (restrict w B) N := by
  have hA := (isMatching_restrict_iff.mp hM).2
  have hB := (isMatching_restrict_iff.mp hN).2
  rw [weight_restrict hA, weight_restrict hB, weight_restrict fun e he => ?_]
  · exact Finset.sum_union (h.disjoint hM hN)
  · rcases Finset.mem_union.mp he with he | he
    · simp [hA e he]
    · simp [hB e he]

/-- A matching of the two parts is the union of its parts. -/
theorem exists_parts {K : Finset (ι × κ)} (hK : IsMatching (restrict w fun i => A i || B i) K) :
    ∃ K₁ K₂, IsMatching (restrict w A) K₁ ∧ IsMatching (restrict w B) K₂ ∧ K₁ ∪ K₂ = K := by
  obtain ⟨hK, hAB⟩ := isMatching_restrict_iff.mp hK
  refine ⟨K.filter fun e => A e.1 = true, K.filter fun e => B e.1 = true,
    isMatching_restrict_iff.mpr ⟨hK.subset (Finset.filter_subset _ _), fun e he => ?_⟩,
    isMatching_restrict_iff.mpr ⟨hK.subset (Finset.filter_subset _ _), fun e he => ?_⟩, ?_⟩
  · exact (Finset.mem_filter.mp he).2
  · exact (Finset.mem_filter.mp he).2
  · ext e
    simp only [Finset.mem_union, Finset.mem_filter]
    constructor
    · rintro (h | h) <;> exact h.1
    · intro he
      have := hAB e he
      simp only [Bool.or_eq_true] at this
      exact this.imp (⟨he, ·⟩) (⟨he, ·⟩)

/-- Heaviest matchings of two separated parts make up a heaviest matching of both. -/
theorem Separated.isHeaviest_union (h : Separated w A B) (hM : IsHeaviest (restrict w A) M)
    (hN : IsHeaviest (restrict w B) N) : IsHeaviest (restrict w fun i => A i || B i) (M ∪ N) := by
  refine ⟨h.isMatching_union hM.toIsMatching hN.toIsMatching, fun K hK => ?_⟩
  obtain ⟨K₁, K₂, h₁, h₂, rfl⟩ := exists_parts hK
  rw [h.weight_union h₁ h₂, h.weight_union hM.toIsMatching hN.toIsMatching]
  exact Nat.add_le_add (hM.le K₁ h₁) (hN.le K₂ h₂)

/-- **Composition**: the only heaviest matchings of two separated parts make up the only heaviest
matching of both. -/
theorem Separated.isUniqueHeaviest_union (h : Separated w A B)
    (hM : IsUniqueHeaviest (restrict w A) M) (hN : IsUniqueHeaviest (restrict w B) N) :
    IsUniqueHeaviest (restrict w fun i => A i || B i) (M ∪ N) := by
  have hunion := h.weight_union hM.toIsMatching hN.toIsMatching
  refine ⟨h.isHeaviest_union hM.toIsHeaviest hN.toIsHeaviest, fun K hK => ?_⟩
  obtain ⟨K₁, K₂, h₁, h₂, rfl⟩ := exists_parts hK.toIsMatching
  have hle := hK.le _ (h.isMatching_union hM.toIsMatching hN.toIsMatching)
  rw [h.weight_union h₁ h₂, hunion] at hle
  have hle₁ := hM.le K₁ h₁
  have hle₂ := hN.le K₂ h₂
  rw [hM.eq K₁ ⟨h₁, fun J hJ => (hM.le J hJ).trans (by omega)⟩,
    hN.eq K₂ ⟨h₂, fun J hJ => (hN.le J hJ).trans (by omega)⟩]

/-- **Two heaviest matchings** of a part that is separated from the rest are parts of two heaviest
matchings of the whole graph. -/
theorem exists_two_isHeaviest {E : Finset (ι × κ)} (hE : ∀ i j, w i j ≠ none → (i, j) ∈ E)
    (hsep : Separated w A fun i => !A i) (hM : IsHeaviest (restrict w A) M)
    (hN : IsHeaviest (restrict w A) N) (hne : M ≠ N) :
    ∃ K L, IsHeaviest w K ∧ IsHeaviest w L ∧ K ≠ L := by
  obtain ⟨R, hR⟩ := exists_isHeaviest (w := restrict w fun i => !A i) (E := E)
    fun i j h => hE i j (restrict_ne_none.mp h).2
  have hall : restrict w (fun i => A i || !A i) = w := by
    funext i j
    exact restrict_of i j (Bool.or_not_self (A i))
  have hMR := hsep.isHeaviest_union hM hR
  have hNR := hsep.isHeaviest_union hN hR
  rw [hall] at hMR hNR
  refine ⟨M ∪ R, N ∪ R, hMR, hNR, fun heq => hne ?_⟩
  have hdisj := hsep.disjoint hM.toIsMatching hR.toIsMatching
  have hdisj' := hsep.disjoint hN.toIsMatching hR.toIsMatching
  rw [← Finset.union_sdiff_cancel_right hdisj, heq, Finset.union_sdiff_cancel_right hdisj']

end Parts

/-! ### Matchings that stand out -/

section StandsOut

variable {ι κ : Type*}

/-- A matching of heavy edges that every other edge touches. What a row adds to all of its edges is
in `base`: an edge of the matching adds more than `2 * b` to it, every other edge at most `b`. -/
structure StandsOut (w : ι → κ → Option ℕ) (base : ι → ℕ) (b : ℕ) (P : Finset (ι × κ)) : Prop
    extends IsMatching w P where
  heavy : ∀ e : ι × κ, e ∈ P → base e.1 + 2 * b < (w e.1 e.2).getD 0
  light : ∀ e : ι × κ, e ∉ P → (w e.1 e.2).getD 0 ≤ base e.1 + b
  touches : ∀ e : ι × κ, w e.1 e.2 ≠ none → ∃ f ∈ P, f.1 = e.1 ∨ f.2 = e.2
  rows : ∀ e : ι × κ, w e.1 e.2 ≠ none → base e.1 ≠ 0 → ∃ f ∈ P, f.1 = e.1

variable {w : ι → κ → Option ℕ} {base : ι → ℕ} {b : ℕ} {P M : Finset (ι × κ)}
variable [DecidableEq ι] [DecidableEq κ]

/-- Each edge of the matching is touched by at most two others. -/
theorem StandsOut.card_sdiff_le (h : StandsOut w base b P) (hM : IsMatching w M) :
    (M \ P).card ≤ 2 * (P \ M).card := by
  have hpartner : ∀ e : ι × κ, ∃ f, e ∈ M \ P → f ∈ P \ M ∧ (e.1 = f.1 ∨ e.2 = f.2) := by
    intro e
    by_cases he : e ∈ M \ P
    · obtain ⟨heM, heP⟩ := Finset.mem_sdiff.mp he
      obtain ⟨f, hf, htouch⟩ := h.touches e (hM.edge e heM)
      refine ⟨f, fun _ => ⟨Finset.mem_sdiff.mpr ⟨hf, fun hfM => heP ?_⟩,
        htouch.imp Eq.symm Eq.symm⟩⟩
      rcases htouch with hrow | hcolumn
      · exact hM.row f hfM e heM hrow ▸ hf
      · exact hM.column f hfM e heM hcolumn ▸ hf
    · exact ⟨e, fun he' => absurd he' he⟩
  choose partner hpartner using hpartner
  refine Finset.card_le_mul_card_image_of_maps_to (fun e he => (hpartner e he).1) 2 fun f _ => ?_
  have hsub : (M \ P).filter (fun e => partner e = f) ⊆
      M.filter (fun e => e.1 = f.1) ∪ M.filter (fun e => e.2 = f.2) := by
    intro e he
    obtain ⟨hmem, rfl⟩ := Finset.mem_filter.mp he
    simp only [Finset.mem_union, Finset.mem_filter, (Finset.mem_sdiff.mp hmem).1, true_and]
    exact (hpartner e hmem).2
  have hrow : (M.filter fun e => e.1 = f.1).card ≤ 1 := Finset.card_le_one.mpr fun e he e' he' => by
    obtain ⟨he, heq⟩ := Finset.mem_filter.mp he
    obtain ⟨he', heq'⟩ := Finset.mem_filter.mp he'
    exact hM.row e he e' he' (heq.trans heq'.symm)
  have hcolumn : (M.filter fun e => e.2 = f.2).card ≤ 1 :=
      Finset.card_le_one.mpr fun e he e' he' => by
    obtain ⟨he, heq⟩ := Finset.mem_filter.mp he
    obtain ⟨he', heq'⟩ := Finset.mem_filter.mp he'
    exact hM.column e he e' he' (heq.trans heq'.symm)
  have := Finset.card_le_card hsub
  have := Finset.card_union_le (M.filter fun e => e.1 = f.1) (M.filter fun e => e.2 = f.2)
  omega

/-- A matching gains no rows that count over one that stands out. -/
theorem StandsOut.sum_base_le (h : StandsOut w base b P) (hM : IsMatching w M) :
    ∑ e ∈ M \ P, base e.1 ≤ ∑ e ∈ P \ M, base e.1 := by
  have hP := h.toIsMatching.subset (Finset.sdiff_subset (s := P) (t := M))
  have hsub : (M \ P).filter (fun e => base e.1 ≠ 0) ⊆ M :=
    (Finset.filter_subset _ _).trans Finset.sdiff_subset
  have hrows : ∀ e ∈ (M \ P).filter (fun e => base e.1 ≠ 0), e.1 ∈ (P \ M).image Prod.fst := by
    intro e he
    obtain ⟨he, hbase⟩ := Finset.mem_filter.mp he
    obtain ⟨heM, heP⟩ := Finset.mem_sdiff.mp he
    obtain ⟨f, hf, hrow⟩ := h.rows e (hM.edge e heM) hbase
    refine Finset.mem_image.mpr ⟨f, Finset.mem_sdiff.mpr ⟨hf, fun hfM => heP ?_⟩, hrow⟩
    exact hM.row f hfM e heM hrow ▸ hf
  calc ∑ e ∈ M \ P, base e.1
      = ∑ e ∈ (M \ P).filter (fun e => base e.1 ≠ 0), base e.1 :=
        (Finset.sum_filter_ne_zero (M \ P)).symm
    _ ≤ ∑ i ∈ (P \ M).image Prod.fst, base i := (hM.subset hsub).sum_row_le hrows base
    _ = ∑ e ∈ P \ M, base e.1 := Finset.sum_image fun e he f hf => hP.row e he f hf

/-- **A matching that stands out** is heavier than every other one. -/
theorem StandsOut.weight_lt (h : StandsOut w base b P) (hM : IsMatching w M) (hne : M ≠ P) :
    weight w M < weight w P := by
  have hcard := h.card_sdiff_le hM
  have hsome : 0 < (P \ M).card := by
    by_contra hnone
    obtain ⟨hM', hP'⟩ : (M \ P).card = 0 ∧ (P \ M).card = 0 := by omega
    rw [Finset.card_eq_zero, Finset.sdiff_eq_empty_iff_subset] at hM' hP'
    exact hne (Finset.Subset.antisymm hM' hP')
  have hlight : ∑ e ∈ M \ P, (w e.1 e.2).getD 0 ≤ ∑ e ∈ M \ P, base e.1 + (M \ P).card * b := by
    rw [← smul_eq_mul, ← Finset.sum_const, ← Finset.sum_add_distrib]
    exact Finset.sum_le_sum fun e he => h.light e (Finset.mem_sdiff.mp he).2
  have hheavy : ∑ e ∈ P \ M, base e.1 + (P \ M).card * (2 * b + 1) ≤
      ∑ e ∈ P \ M, (w e.1 e.2).getD 0 := by
    rw [← smul_eq_mul, ← Finset.sum_const, ← Finset.sum_add_distrib]
    refine Finset.sum_le_sum fun e he => ?_
    have := h.heavy e (Finset.mem_sdiff.mp he).1
    omega
  have hbase := h.sum_base_le hM
  have hcount : (M \ P).card * b ≤ (P \ M).card * (2 * b) := by
    calc (M \ P).card * b ≤ 2 * (P \ M).card * b := Nat.mul_le_mul_right b hcard
      _ = (P \ M).card * (2 * b) := by ring
  have hsplit : weight w M = ∑ e ∈ M ∩ P, (w e.1 e.2).getD 0 + ∑ e ∈ M \ P, (w e.1 e.2).getD 0 :=
    (Finset.sum_inter_add_sum_sdiff M P _).symm
  have hsplit' : weight w P = ∑ e ∈ M ∩ P, (w e.1 e.2).getD 0 + ∑ e ∈ P \ M,
      (w e.1 e.2).getD 0 := by
    rw [Finset.inter_comm]
    exact (Finset.sum_inter_add_sum_sdiff P M _).symm
  rw [Nat.mul_add, Nat.mul_one] at hheavy
  omega

theorem StandsOut.isUniqueHeaviest (h : StandsOut w base b P) : IsUniqueHeaviest w P := by
  have hle : ∀ N, IsMatching w N → weight w N ≤ weight w P := fun N hN => by
    by_cases heq : N = P
    · rw [heq]
    · exact (h.weight_lt hN heq).le
  refine ⟨⟨h.toIsMatching, hle⟩, fun N hN => ?_⟩
  by_contra hne
  have := h.weight_lt hN.toIsMatching hne
  have := hN.le P h.toIsMatching
  omega

end StandsOut

/-! ### Values in an order -/

section Values

variable {ι κ α : Type*} [LE α] {w g : ι → κ → Option ℕ} {value : Finset (ι × κ) → α}
variable {M : Finset (ι × κ)}

/-- A matching of the largest value. -/
structure IsBest (w : ι → κ → Option ℕ) (value : Finset (ι × κ) → α) (M : Finset (ι × κ)) : Prop
    extends IsMatching w M where
  le : ∀ N, IsMatching w N → value N ≤ value M

theorem isMatching_congr (h : ∀ i j, w i j ≠ none ↔ g i j ≠ none) :
    IsMatching w M ↔ IsMatching g M :=
  ⟨fun hM => ⟨fun e he => (h e.1 e.2).mp (hM.edge e he), hM.row, hM.column⟩,
    fun hM => ⟨fun e he => (h e.1 e.2).mpr (hM.edge e he), hM.row, hM.column⟩⟩

/-- **Encoding**: if the weights order the matchings as the values do, the heaviest matchings are
the best ones. -/
theorem isHeaviest_iff_isBest (hedge : ∀ i j, w i j ≠ none ↔ g i j ≠ none)
    (hle : ∀ M N, IsMatching w M → IsMatching w N → (weight w M ≤ weight w N ↔ value M ≤ value N)) :
    IsHeaviest w M ↔ IsBest g value M := by
  constructor
  · intro hM
    refine ⟨(isMatching_congr hedge).mp hM.toIsMatching, fun N hN => ?_⟩
    have hN := (isMatching_congr hedge).mpr hN
    exact (hle N M hN hM.toIsMatching).mp (hM.le N hN)
  · intro hM
    have hM' := (isMatching_congr hedge).mpr hM.toIsMatching
    refine ⟨hM', fun N hN => (hle N M hN hM').mpr ?_⟩
    exact hM.le N ((isMatching_congr hedge).mp hN)

end Values

/-! ### Lexicographic values -/

section Lexicographic

variable {a a' b b' c c' S R : ℕ}

/-- Two digits, of which the lower one is below the base, are ordered by the higher one first. -/
theorem digits_le_iff (hc : c < S) (hc' : c' < S) :
    c + b * S ≤ c' + b' * S ↔ b < b' ∨ b = b' ∧ c ≤ c' := by
  rcases lt_trichotomy b b' with h | rfl | h
  · have := Nat.mul_le_mul_right S (Nat.succ_le_of_lt h)
    rw [Nat.succ_mul] at this
    exact ⟨fun _ => .inl h, fun _ => by omega⟩
  · simp
  · have := Nat.mul_le_mul_right S (Nat.succ_le_of_lt h)
    rw [Nat.succ_mul] at this
    exact ⟨fun _ => by omega, fun _ => by omega⟩

/-- **Packing**: three numbers in one, of which the lower two are bounded. -/
theorem packed_le_iff (hb : b ≤ R) (hb' : b' ≤ R) (hc : c < S) (hc' : c' < S) :
    c + b * S + a * ((R + 1) * S) ≤ c' + b' * S + a' * ((R + 1) * S) ↔
      toLex (a, toLex (b, c)) ≤ toLex (a', toLex (b', c')) := by
  have hlow : ∀ {x y : ℕ}, x < S → y ≤ R → x + y * S < (R + 1) * S := fun {x y} hx hy => by
    have := Nat.mul_le_mul_right S hy
    rw [Nat.add_mul, Nat.one_mul]
    omega
  rw [digits_le_iff (hlow hc hb) (hlow hc' hb'), digits_le_iff hc hc', Prod.Lex.toLex_le_toLex,
    Prod.Lex.toLex_le_toLex]

end Lexicographic

/-! ### Relabelling -/

section Relabelling

variable {ι κ ι' κ' : Type*} [DecidableEq ι'] [DecidableEq κ']

/-- The graphs `w` and `w'` are the same up to the names of the rows and columns that have edges. -/
structure Relabel (f : ι → ι') (g : κ → κ') (w : ι → κ → Option ℕ) (w' : ι' → κ' → Option ℕ) :
    Prop where
  map : ∀ i j, w i j ≠ none → w' (f i) (g j) = w i j
  exists_of : ∀ i' j', w' i' j' ≠ none → ∃ i j, f i = i' ∧ g j = j' ∧ w i j ≠ none
  row_inj : ∀ i j i₁ j₁, w i j ≠ none → w i₁ j₁ ≠ none → f i = f i₁ → i = i₁
  column_inj : ∀ i j i₁ j₁, w i j ≠ none → w i₁ j₁ ≠ none → g j = g j₁ → j = j₁

variable {f : ι → ι'} {g : κ → κ'} {w : ι → κ → Option ℕ} {w' : ι' → κ' → Option ℕ}
variable {M N : Finset (ι × κ)}

omit [DecidableEq ι'] [DecidableEq κ'] in
theorem Relabel.inj (h : Relabel f g w w') {e e₁ : ι × κ} (he : w e.1 e.2 ≠ none)
    (he₁ : w e₁.1 e₁.2 ≠ none) (heq : Prod.map f g e = Prod.map f g e₁) : e = e₁ :=
  Prod.ext (h.row_inj _ _ _ _ he he₁ (congrArg Prod.fst heq))
    (h.column_inj _ _ _ _ he he₁ (congrArg Prod.snd heq))

theorem Relabel.weight_image (h : Relabel f g w w') (hM : IsMatching w M) :
    weight w' (M.image (Prod.map f g)) = weight w M := by
  unfold weight
  rw [Finset.sum_image fun e he e₁ he₁ => h.inj (hM.edge e he) (hM.edge e₁ he₁)]
  exact Finset.sum_congr rfl fun e he => by rw [Prod.map_fst, Prod.map_snd,
    h.map _ _ (hM.edge e he)]

theorem Relabel.isMatching_image (h : Relabel f g w w') (hM : IsMatching w M) :
    IsMatching w' (M.image (Prod.map f g)) := by
  refine ⟨fun e he => ?_, fun e he e₁ he₁ heq => ?_, fun e he e₁ he₁ heq => ?_⟩
  · obtain ⟨p, hp, rfl⟩ := Finset.mem_image.mp he
    rw [Prod.map_fst, Prod.map_snd, h.map _ _ (hM.edge p hp)]
    exact hM.edge p hp
  · obtain ⟨p, hp, rfl⟩ := Finset.mem_image.mp he
    obtain ⟨q, hq, rfl⟩ := Finset.mem_image.mp he₁
    rw [hM.row p hp q hq (h.row_inj _ _ _ _ (hM.edge p hp) (hM.edge q hq) heq)]
  · obtain ⟨p, hp, rfl⟩ := Finset.mem_image.mp he
    obtain ⟨q, hq, rfl⟩ := Finset.mem_image.mp he₁
    rw [hM.column p hp q hq (h.column_inj _ _ _ _ (hM.edge p hp) (hM.edge q hq) heq)]

theorem Relabel.exists_image_eq (h : Relabel f g w w') {M' : Finset (ι' × κ')}
    (hM' : IsMatching w' M') : ∃ M, IsMatching w M ∧ M.image (Prod.map f g) = M' := by
  classical
  have hpre : ∀ e : M', ∃ p : ι × κ, Prod.map f g p = e.1 ∧ w p.1 p.2 ≠ none := fun e => by
    obtain ⟨i, j, hi, hj, hw⟩ := h.exists_of _ _ (hM'.edge e.1 e.2)
    exact ⟨(i, j), Prod.ext hi hj, hw⟩
  choose pre himage hedge using hpre
  refine ⟨M'.attach.image pre, ⟨fun p hp => ?_, fun p hp q hq heq => ?_,
    fun p hp q hq heq => ?_⟩, ?_⟩
  · obtain ⟨e, -, rfl⟩ := Finset.mem_image.mp hp
    exact hedge e
  · obtain ⟨e, -, rfl⟩ := Finset.mem_image.mp hp
    obtain ⟨e₁, -, rfl⟩ := Finset.mem_image.mp hq
    have : e.1 = e₁.1 := by
      refine hM'.row e.1 e.2 e₁.1 e₁.2 ?_
      rw [← himage e, ← himage e₁, Prod.map_fst, Prod.map_fst, heq]
    rw [Subtype.ext this]
  · obtain ⟨e, -, rfl⟩ := Finset.mem_image.mp hp
    obtain ⟨e₁, -, rfl⟩ := Finset.mem_image.mp hq
    have : e.1 = e₁.1 := by
      refine hM'.column e.1 e.2 e₁.1 e₁.2 ?_
      rw [← himage e, ← himage e₁, Prod.map_snd, Prod.map_snd, heq]
    rw [Subtype.ext this]
  · ext e
    simp only [Finset.mem_image, Finset.mem_attach, true_and, Subtype.exists]
    constructor
    · rintro ⟨_, ⟨e₁, he₁, rfl⟩, rfl⟩
      rw [himage ⟨e₁, he₁⟩]
      exact he₁
    · exact fun he => ⟨pre ⟨e, he⟩, ⟨e, he, rfl⟩, himage ⟨e, he⟩⟩

/-- **Relabelling** carries heaviest matchings to heaviest matchings. -/
theorem Relabel.isHeaviest_image (h : Relabel f g w w') (hM : IsHeaviest w M) :
    IsHeaviest w' (M.image (Prod.map f g)) := by
  refine ⟨h.isMatching_image hM.toIsMatching, fun N' hN' => ?_⟩
  obtain ⟨N, hN, rfl⟩ := h.exists_image_eq hN'
  rw [h.weight_image hN, h.weight_image hM.toIsMatching]
  exact hM.le N hN

/-- Every heaviest matching of the relabelled graph is the image of one. -/
theorem Relabel.exists_isHeaviest (h : Relabel f g w w') {M' : Finset (ι' × κ')}
    (hM' : IsHeaviest w' M') : ∃ M, IsHeaviest w M ∧ M.image (Prod.map f g) = M' := by
  obtain ⟨M, hM, rfl⟩ := h.exists_image_eq hM'.toIsMatching
  refine ⟨M, ⟨hM, fun N hN => ?_⟩, rfl⟩
  rw [← h.weight_image hN, ← h.weight_image hM]
  exact hM'.le _ (h.isMatching_image hN)

theorem Relabel.subset_of_image_subset (h : Relabel f g w w') (hM : IsMatching w M)
    (hN : IsMatching w N) (hsub : M.image (Prod.map f g) ⊆ N.image (Prod.map f g)) : M ⊆ N := by
  intro e he
  obtain ⟨e₁, he₁, heq⟩ := Finset.mem_image.mp (hsub (Finset.mem_image_of_mem _ he))
  rw [← h.inj (hN.edge e₁ he₁) (hM.edge e he) heq]
  exact he₁

/-- A relabelled graph has a second heaviest matching if and only if the graph has. -/
theorem Relabel.exists_ne_iff (h : Relabel f g w w') (hM : IsHeaviest w M) :
    (∃ N', IsHeaviest w' N' ∧ N' ≠ M.image (Prod.map f g)) ↔ ∃ N, IsHeaviest w N ∧ N ≠ M := by
  constructor
  · rintro ⟨N', hN', hne⟩
    obtain ⟨N, hN, rfl⟩ := h.exists_isHeaviest hN'
    exact ⟨N, hN, fun heq => hne (by rw [heq])⟩
  · rintro ⟨N, hN, hne⟩
    refine ⟨_, h.isHeaviest_image hN, fun heq => hne ?_⟩
    exact Finset.Subset.antisymm
      (h.subset_of_image_subset hN.toIsMatching hM.toIsMatching heq.subset)
      (h.subset_of_image_subset hM.toIsMatching hN.toIsMatching heq.superset)

end Relabelling

end Sporos.Lib.Assignment

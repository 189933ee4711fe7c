import Sporos.Lib.Loop
import Sporos.Matcher.Heaviest

/-! # The Hungarian algorithm ends

The two inner loops of `hungarian` have no bound in the source: the search ends when it finds a free
column, and the augmentation when it is back at the fictitious one. `Runs` is the algorithm with its
loops as they are written. A matrix with at least as many columns as rows has exactly one run, which
ends with the assignment `hungarian` computes. -/

namespace Sporos.Matcher.HungarianRuns

open Function (update)
open Sporos.Lib.Assignment
open Sporos.Lib.Loop
open Sporos.Matcher.Hungarian
open Sporos.Matcher.Assign
open Sporos.Matcher.Heaviest

section

variable (costs : List (List ℤ)) (columns : ℕ)

/-- Use columns until a free one is found. -/
def SearchRuns : Search × ℕ → Search × ℕ → Prop :=
  Until (fun p => searchRound costs columns p.1 p.2) fun p => p.1.columnRow p.2 = 0

/-- Shift the rows back until the fictitious column is reached. -/
def AugmentRuns (previous : ℕ → ℕ) : (ℕ → ℕ) × ℕ → (ℕ → ℕ) × ℕ → Prop :=
  Until (fun p => (update p.1 p.2 (p.1 (previous p.2)), previous p.2)) fun p => p.2 = 0

/-- The insertion of a row. -/
inductive InsertRuns (t : Tables) (row : ℕ) : Tables → Prop where
  | mk {s : Search} {column last : ℕ} {columnRow : ℕ → ℕ}
    (hsearch : SearchRuns costs columns
      ({ t with columnRow := update t.columnRow 0 row, minimum := fun _ => none,
                used := fun _ => false }, 0) (s, column))
    (haugment : AugmentRuns s.previous (s.columnRow, column) (columnRow, last)) :
    InsertRuns t row { s.toTables with columnRow := columnRow }

/-- The algorithm ends with an assignment. -/
def Runs (assignment : List ℕ) : Prop :=
  ∃ t, Each (InsertRuns costs (costs.headD []).length) initialTables (List.range' 1 costs.length) t
    ∧
    assignment = readAssignment costs.length (costs.headD []).length t.columnRow

end

section

variable {costs : List (List ℤ)} {m k : ℕ}

/-- The search that is cut off by its fuel ends in an assigned column. -/
theorem searchRuns_searchLoop : ∀ (fuel : ℕ) (s : Search) (column : ℕ), s.columnRow column ≠ 0 →
    (searchLoop costs m fuel s column).1.columnRow (searchLoop costs m fuel s column).2 = 0 →
    SearchRuns costs m (s, column) (searchLoop costs m fuel s column)
  | 0, s, column, hc, h => absurd h hc
  | fuel + 1, s, column, hc, h => by
    simp only [searchLoop] at h ⊢
    split_ifs at h ⊢ with hnext
    · exact .stop hnext
    · exact .again hnext (searchRuns_searchLoop fuel _ _ hnext h)

theorem augmentRuns_augment {previous : ℕ → ℕ} {j : ℕ} {l : List ℕ}
    (h : PathTo previous j l) (hj : j ≠ 0) :
    ∀ (fuel : ℕ) (columnRow : ℕ → ℕ), l.length ≤ fuel + 1 →
      AugmentRuns previous (columnRow, j) (augment previous fuel columnRow j, 0) := by
  induction h with
  | root => exact absurd rfl hj
  | @step j l hj h hl ih =>
    intro fuel columnRow hfuel
    have hpos := h.length_pos
    obtain ⟨fuel, rfl⟩ : ∃ f, fuel = f + 1 := ⟨fuel - 1, by simp at hfuel; omega⟩
    simp only [augment]
    split_ifs with hp
    · have hstop : AugmentRuns previous (columnRow,
          j) (update columnRow j (columnRow (previous j)), previous j) :=
        .stop hp
      rwa [hp] at hstop ⊢
    · exact .again hp (ih hp fuel _ (by simp at hfuel; omega))

/-- **Inserting a row** ends, with the tables that `insertRow` computes. -/
theorem insertRuns_insertRow {t : Tables} (h : Assigned costs m k t) (hk : k < m) :
    InsertRuns costs m t (k + 1) (insertRow costs m t (k + 1)) := by
  have hstart := h.search hk
  obtain ⟨hs, hfree, -, -, hn0⟩ := Searching.loop (m + 1) _ _ hstart (by simp) (by omega)
  obtain ⟨l, hpath, -, -, hlen⟩ := hs.exists_path hn0
  exact .mk (searchRuns_searchLoop _ _ _ (by simp) hfree) (augmentRuns_augment hpath hn0 _ _ hlen)

theorem insertRuns_unique {t : Tables} {row : ℕ} {t₁ t₂ : Tables} (h₁ : InsertRuns costs m t row t₁)
    (h₂ : InsertRuns costs m t row t₂) : t₁ = t₂ := by
  obtain ⟨hsearch, haugment⟩ := h₁
  obtain ⟨hsearch', haugment'⟩ := h₂
  obtain ⟨rfl, rfl⟩ := Prod.mk.inj (hsearch.unique hsearch')
  obtain ⟨rfl, -⟩ := Prod.mk.inj (haugment.unique haugment')
  rfl

theorem each_insertRow : ∀ k ≤ m, Each (InsertRuns costs m) initialTables (List.range' 1 k)
    ((List.range' 1 k).foldl (insertRow costs m) initialTables)
  | 0, _ => .nil _
  | k + 1, hk => by
    rw [List.range'_concat, List.foldl_append, List.foldl_cons, List.foldl_nil, Nat.one_mul,
      Nat.add_comm 1 k]
    exact (each_insertRow k (by omega)).append
      (.cons (insertRuns_insertRow (assigned_fold k (by omega)) (by omega)) (.nil _))

/-- **The algorithm** ends with the assignment that `hungarian` computes, and with no other. -/
theorem runs_iff (hrows : costs.length ≤ (costs.headD []).length) {assignment : List ℕ} :
    Runs costs assignment ↔ assignment = hungarian costs := by
  have heach : Each (InsertRuns costs _) _ _ _ := each_insertRow costs.length hrows
  constructor
  · rintro ⟨t, ht, rfl⟩
    obtain rfl := ht.unique (R := InsertRuns costs (costs.headD []).length)
      (fun _ _ _ _ h₁ h₂ => insertRuns_unique h₁ h₂) heach
    rfl
  · rintro rfl
    exact ⟨_, heach, rfl⟩

end

/-- **Optimal assignments.** `hungarian` ends, with a cheapest injective assignment of the rows, and
`optimalAssignment` returns the pairs of a heaviest matching of the graph without the banned pair,
each once, and their weight. -/
theorem hungarian_optimal :
    (∀ (costs : List (List ℤ)) (m : ℕ), 1 ≤ costs.length → costs.length ≤ m →
      (∀ row ∈ costs, row.length = m) →
      ∃ a : Fin costs.length → Fin m, Function.Injective a ∧
        (∀ assignment, Runs costs assignment ↔ assignment = List.ofFn fun i => (a i).val) ∧
        ∀ b : Fin costs.length → Fin m, Function.Injective b →
          ∑ i : Fin costs.length, entry costs i.val (a i).val ≤
            ∑ i : Fin costs.length, entry costs i.val (b i).val) ∧
    ∀ (weights : Weights) (banned : Option (ℕ × ℕ)),
      (∀ row ∈ weights, row.length = (weights.headD []).length) →
      (∀ assignment, Runs (Assign.costs weights banned) assignment ↔
        assignment = hungarian (Assign.costs weights banned)) ∧
      IsHeaviest (ban (weightAt weights) banned) (optimalAssignment weights banned).2.toFinset ∧
      (optimalAssignment weights banned).2.Nodup ∧
      (optimalAssignment weights banned).1 =
        weight (ban (weightAt weights) banned) (optimalAssignment weights banned).2.toFinset := by
  refine ⟨fun costs m hpos hle hm => ?_, fun weights banned hrect =>
    ⟨fun assignment => ?_, ?_, ?_, ?_⟩⟩
  · have hne : costs ≠ [] := List.ne_nil_of_length_pos hpos
    obtain ⟨a, hinj, hlist, hbest⟩ := hungarian_spec hm hne hle
    refine ⟨a, hinj, fun assignment => ?_, hbest⟩
    have hcols : (costs.headD []).length = m := by
      obtain ⟨row, rest, rfl⟩ := List.exists_cons_of_ne_nil hne
      exact hm row (by simp)
    rw [runs_iff (by rw [hcols]; exact hle), hlist]
  · refine runs_iff ?_
    by_cases hempty : weights = []
    · simp [hempty, Assign.costs]
    · have hne : Assign.costs weights banned ≠ [] := fun h => hempty
        (List.length_eq_zero_iff.mp (by rw [← length_costs banned, h, List.length_nil]))
      obtain ⟨row, rest, hrows⟩ := List.exists_cons_of_ne_nil hne
      rw [length_costs, hrows, List.headD_cons,
        length_of_mem_costs (show row ∈ Assign.costs weights banned by rw [hrows]; simp)]
      omega
  · exact optimalAssignment_isHeaviest banned rfl hrect
  · exact optimalAssignment_nodup
  · exact optimalAssignment_total rfl hrect

/-- Two files that want the same source, and the same files when the better pair is banned. -/
theorem hungarian_optimal_contested :
    (∃ a : Fin 2 → Fin 3, Function.Injective a ∧
      (∀ assignment, Runs [[-10, 0, 0], [-5, 0, 0]] assignment
        ↔ assignment = List.ofFn fun i => (a i).val) ∧
      ∀ b : Fin 2 → Fin 3, Function.Injective b →
        ∑ i : Fin 2, entry [[-10, 0, 0], [-5, 0, 0]] i.val (a i).val ≤
          ∑ i : Fin 2, entry [[-10, 0, 0], [-5, 0, 0]] i.val (b i).val) ∧
    IsHeaviest (ban (weightAt [[some 10], [some 5]]) (some (0, 0)))
      (optimalAssignment [[some 10], [some 5]] (some (0, 0))).2.toFinset :=
  ⟨hungarian_optimal.1 [[-10, 0, 0], [-5, 0, 0]] 3 (by decide) (by decide) (by decide),
    (hungarian_optimal.2 [[some 10], [some 5]] (some (0, 0)) (by decide)).2.1⟩

end Sporos.Matcher.HungarianRuns

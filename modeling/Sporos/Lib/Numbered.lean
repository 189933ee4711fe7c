import Mathlib

/-! # Numbered tables

A table with `INTEGER PRIMARY KEY AUTOINCREMENT`: an inserted row gets the next number, and a number
is given once. A row is an entry, its number and what it holds for good, and columns that may be
updated. A number that has been given and is no more in the table is gone, and stays so. -/

namespace Sporos.Lib.Numbered

/-- A table whose rows have increasing numbers below the next one. -/
structure Queue {ρ τ : Type*} (entry : ρ → ℕ × τ) where
  rows : List ρ
  next : ℕ
  increasing : rows.Pairwise fun row row' => (entry row).1 < (entry row').1
  below : ∀ row ∈ rows, (entry row).1 < next

/-- A row that waits for its number. -/
def New {ρ τ : Type*} (entry : ρ → ℕ × τ) := { row : ℕ → ρ // ∀ n, (entry (row n)).1 = n }

section

variable {ρ τ : Type*} {entry : ρ → ℕ × τ}

/-- The table without rows, with the first number. -/
def empty (first : ℕ) : Queue entry := ⟨[], first, .nil, by simp⟩

theorem increasing_insert (t : Queue entry) (new : New entry) :
    (t.rows ++ [new.1 t.next]).Pairwise fun row row' => (entry row).1 < (entry row').1 := by
  refine List.pairwise_append.mpr ⟨t.increasing, List.pairwise_singleton _ _,
    fun row hrow row' hrow' => ?_⟩
  rw [List.mem_singleton.mp hrow', new.2]
  exact t.below row hrow

theorem below_insert (t : Queue entry) (new : New entry) :
    ∀ row ∈ t.rows ++ [new.1 t.next], (entry row).1 < t.next + 1 := by
  intro row hrow
  rcases List.mem_append.mp hrow with hrow | hrow
  · exact (t.below row hrow).trans (Nat.lt_succ_self _)
  · rw [List.mem_singleton.mp hrow, new.2]
    exact Nat.lt_succ_self _

/-- `INSERT`. -/
def insert (t : Queue entry) (new : New entry) : Queue entry :=
  ⟨t.rows ++ [new.1 t.next], t.next + 1, increasing_insert t new, below_insert t new⟩

/-- The rows get the next numbers in turn. -/
def insertAll (t : Queue entry) (news : List (New entry)) : Queue entry := news.foldl insert t

theorem below_delete (t : Queue entry) (p : ρ → Bool) :
    ∀ row ∈ t.rows.filter fun row => !p row, (entry row).1 < t.next :=
  fun row hrow => t.below row (List.mem_of_mem_filter hrow)

/-- `DELETE … WHERE p`. -/
def delete (t : Queue entry) (p : ρ → Bool) : Queue entry :=
  ⟨t.rows.filter fun row => !p row, t.next, t.increasing.filter _, below_delete t p⟩

theorem increasing_update (t : Queue entry) {f : ρ → ρ} (hf : ∀ row, entry (f row) = entry row) :
    (t.rows.map f).Pairwise fun row row' => (entry row).1 < (entry row').1 := by
  rw [List.pairwise_map]
  simpa only [hf] using t.increasing

theorem below_update (t : Queue entry) {f : ρ → ρ} (hf : ∀ row, entry (f row) = entry row) :
    ∀ row ∈ t.rows.map f, (entry row).1 < t.next := by
  intro row hrow
  obtain ⟨old, hold, rfl⟩ := List.mem_map.mp hrow
  rw [hf]
  exact t.below old hold

/-- `UPDATE`, of columns that do not belong to the entry. -/
def update (t : Queue entry) (f : ρ → ρ) (hf : ∀ row, entry (f row) = entry row) : Queue entry :=
  ⟨t.rows.map f, t.next, increasing_update t hf, below_update t hf⟩

@[simp] theorem rows_insert (t : Queue entry) (new : New entry) :
    (insert t new).rows = t.rows ++ [new.1 t.next] := rfl

@[simp] theorem rows_delete (t : Queue entry) (p : ρ → Bool) :
    (delete t p).rows = t.rows.filter fun row => !p row := rfl

@[simp] theorem rows_update (t : Queue entry) (f : ρ → ρ) (hf : ∀ row, entry (f row) = entry row) :
    (update t f hf).rows = t.rows.map f := rfl

theorem insertAll_cons (t : Queue entry) (new : New entry) (news : List (New entry)) :
    insertAll t (new :: news) = insertAll (insert t new) news := rfl

/-- The rows that are inserted stand behind the others, in their order. -/
theorem rows_insertAll : ∀ (news : List (New entry)) (t : Queue entry),
    (insertAll t news).rows = t.rows ++ news.mapIdx fun i new => new.1 (t.next + i)
  | [], t => by simp [insertAll]
  | new :: news, t => by
    rw [insertAll_cons, rows_insertAll news (insert t new), List.mapIdx_cons]
    simp [insert, Nat.add_assoc, Nat.add_comm 1]

/-- A row has one entry for its number. -/
theorem eq_of_number_eq (t : Queue entry) {row row' : ρ} (h : row ∈ t.rows) (h' : row' ∈ t.rows)
    (hnumber : (entry row).1 = (entry row').1) : row = row' := by
  have hinjective : (t.rows.map fun row => (entry row).1).Nodup := by
    rw [List.Nodup, List.pairwise_map]
    exact t.increasing.imp fun hlt => hlt.ne
  exact List.inj_on_of_nodup_map hinjective h h' hnumber

/-! ### What becomes of the numbers -/

/-- The number has been given, and no row has it. -/
def Gone (n : ℕ) (t : Queue entry) : Prop := n < t.next ∧ ∀ row ∈ t.rows, (entry row).1 ≠ n

/-- No number is taken back, and what has an old number is the entry it was. -/
structure Follows (t t' : Queue entry) : Prop where
  next : t.next ≤ t'.next
  old : ∀ row' ∈ t'.rows, (entry row').1 < t.next → ∃ row ∈ t.rows, entry row = entry row'

theorem Follows.refl (t : Queue entry) : Follows t t :=
  ⟨le_rfl, fun row hrow _ => ⟨row, hrow, rfl⟩⟩

theorem Follows.trans {t₁ t₂ t₃ : Queue entry} (h₁ : Follows t₁ t₂)
    (h₂ : Follows t₂ t₃) : Follows t₁ t₃ := by
  refine ⟨h₁.next.trans h₂.next, fun row₃ hrow₃ hlt => ?_⟩
  obtain ⟨row₂, hrow₂, heq₂⟩ := h₂.old row₃ hrow₃ (hlt.trans_le h₁.next)
  obtain ⟨row₁, hrow₁, heq₁⟩ := h₁.old row₂ hrow₂ (by rwa [heq₂])
  exact ⟨row₁, hrow₁, heq₁.trans heq₂⟩

theorem follows_insert (t : Queue entry) (new : New entry) : Follows t (insert t new) := by
  refine ⟨Nat.le_succ _, fun row hrow hlt => ?_⟩
  rcases List.mem_append.mp hrow with hrow | hrow
  · exact ⟨row, hrow, rfl⟩
  · rw [List.mem_singleton.mp hrow, new.2] at hlt
    exact absurd hlt (lt_irrefl _)

theorem follows_insertAll : ∀ (news : List (New entry)) (t : Queue entry),
    Follows t (insertAll t news)
  | [], t => .refl t
  | new :: news, t => (follows_insert t new).trans (follows_insertAll news (insert t new))

theorem follows_delete (t : Queue entry) (p : ρ → Bool) : Follows t (delete t p) :=
  ⟨le_rfl, fun row hrow _ => ⟨row, List.mem_of_mem_filter hrow, rfl⟩⟩

theorem follows_update (t : Queue entry) {f : ρ → ρ} (hf : ∀ row, entry (f row) = entry row) :
    Follows t (update t f hf) := by
  refine ⟨le_rfl, fun row' hrow' _ => ?_⟩
  obtain ⟨row, hrow, rfl⟩ := List.mem_map.mp hrow'
  exact ⟨row, hrow, (hf row).symm⟩

theorem Gone.follows {n : ℕ} {t t' : Queue entry} (h : Gone n t)
    (hfollows : Follows t t') : Gone n t' := by
  refine ⟨h.1.trans_le hfollows.next, fun row' hrow' hnumber => ?_⟩
  obtain ⟨row, hrow, heq⟩ := hfollows.old row' hrow' (hnumber ▸ h.1)
  exact h.2 row hrow (by rw [heq, hnumber])

/-- A number is not given yet, in the table, or gone. -/
theorem mem_or_gone {n : ℕ} (t : Queue entry) (h : n < t.next) :
    (∃ row ∈ t.rows, (entry row).1 = n) ∨ Gone n t := by
  by_cases hmem : ∃ row ∈ t.rows, (entry row).1 = n
  · exact .inl hmem
  · exact .inr ⟨h, fun row hrow hnumber => hmem ⟨row, hrow, hnumber⟩⟩

theorem gone_delete_iff {n : ℕ} {t : Queue entry} {p : ρ → Bool} :
    Gone n (delete t p) ↔ n < t.next ∧ ∀ row ∈ t.rows, (entry row).1 = n → p row = true := by
  constructor
  · rintro ⟨hlt, hnone⟩
    refine ⟨hlt, fun row hrow hnumber => ?_⟩
    by_contra hp
    exact hnone row (List.mem_filter.mpr ⟨hrow, by simpa using hp⟩) hnumber
  · rintro ⟨hlt, hall⟩
    refine ⟨hlt, fun row hrow hnumber => ?_⟩
    obtain ⟨hrow, hp⟩ := List.mem_filter.mp hrow
    rw [hall row hrow hnumber] at hp
    exact absurd hp (by decide)

theorem gone_update_iff {n : ℕ} {t : Queue entry} {f : ρ → ρ}
    (hf : ∀ row, entry (f row) = entry row) : Gone n (update t f hf) ↔ Gone n t := by
  simp [Gone, update, hf]

theorem gone_insert_iff {n : ℕ} {t : Queue entry} {new : New entry} :
    Gone n (insert t new) ↔ Gone n t := by
  constructor
  · rintro ⟨hlt, hnone⟩
    have hne : t.next ≠ n := by
      have h := hnone (new.1 t.next) (List.mem_append_right _ (List.mem_singleton_self _))
      rwa [new.2] at h
    exact ⟨lt_of_le_of_ne (Nat.lt_succ_iff.mp hlt) hne.symm,
      fun row hrow => hnone row (List.mem_append_left _ hrow)⟩
  · exact fun h => h.follows (follows_insert t new)

theorem gone_insertAll_iff {n : ℕ} : ∀ {news : List (New entry)} {t : Queue entry},
    Gone n (insertAll t news) ↔ Gone n t
  | [], t => Iff.rfl
  | new :: news, t => by rw [insertAll_cons, gone_insertAll_iff, gone_insert_iff]

end

/-! ### Runs -/

section

variable {σ α : Type*} (step : σ → α → σ) {P : σ → Prop}

theorem stable_foldl (hstable : ∀ s a, P s → P (step s a)) : ∀ (as : List α) {s : σ}, P s →
    P (as.foldl step s)
  | [], _, h => h
  | a :: as, s, h => stable_foldl hstable as (hstable s a h)

/-- What holds in the end, did not hold in the beginning and stays once it holds, began with one
step. -/
theorem exists_unique_step (hstable : ∀ s a, P s → P (step s a)) : ∀ {as : List α} {s : σ}, ¬ P s →
    P (as.foldl step s) → ∃! before, ∃ a after, as = before ++ a :: after
      ∧ ¬ P (before.foldl step s) ∧
      P (step (before.foldl step s) a)
  | [], s, hbegin, hend => absurd hend hbegin
  | a :: as, s, hbegin, hend => by
    by_cases hfirst : P (step s a)
    · refine ⟨[], ⟨a, as, rfl, hbegin, hfirst⟩, ?_⟩
      rintro before ⟨a', after, heq, hbefore, -⟩
      cases before with
      | nil => rfl
      | cons b before =>
        obtain ⟨rfl, -⟩ := List.cons.inj heq
        exact absurd (stable_foldl step hstable before hfirst) hbefore
    · obtain ⟨before, ⟨a', after, heq, hbefore, hafter⟩, hunique⟩ :=
        exists_unique_step hstable hfirst hend
      refine ⟨a :: before, ⟨a', after, by rw [heq]; rfl, hbefore, hafter⟩, ?_⟩
      rintro other ⟨a'', after', heq', hother, hflip⟩
      cases other with
      | nil =>
        obtain ⟨rfl, -⟩ := List.cons.inj heq'
        exact absurd hflip hfirst
      | cons b other =>
        obtain ⟨rfl, hrest⟩ := List.cons.inj heq'
        rw [hunique other ⟨a'', after', hrest, hother, hflip⟩]

end

end Sporos.Lib.Numbered

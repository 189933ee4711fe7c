import Mathlib.Tactic

/-! # Counters

A counter that each step of a run leaves or raises by one. It never falls, and each value above the
first is reached by exactly one step. A rank that falls with every step, except for `k` of them,
bounds the steps until a run stops. -/

namespace Sporos.Lib.Counter

/-- Each step leaves the counter or raises it by one. -/
def Counts (f : ℕ → ℕ) : Prop := ∀ n, f (n + 1) = f n ∨ f (n + 1) = f n + 1

variable {f : ℕ → ℕ}

theorem Counts.monotone (h : Counts f) : Monotone f := by
  refine monotone_nat_of_le_succ fun n => ?_
  rcases h n with h | h <;> omega

/-- A value that the counter passes is reached by a step. -/
theorem Counts.exists_step (h : Counts f) {n v : ℕ} (h0 : f 0 < v) (hn : v ≤ f n) :
    ∃ i < n, f i < v ∧ f (i + 1) = v := by
  induction n with
  | zero => omega
  | succ n ih =>
    rcases Nat.lt_or_ge (f n) v with hlt | hge
    · refine ⟨n, Nat.lt_succ_self n, hlt, ?_⟩
      rcases h n with h | h <;> omega
    · obtain ⟨i, hi, hstep⟩ := ih hge
      exact ⟨i, Nat.lt_succ_of_lt hi, hstep⟩

/-- **Each value is reached once.** -/
theorem Counts.existsUnique_step (h : Counts f) {n v : ℕ} (h0 : f 0 < v) (hn : v ≤ f n) :
    ∃! i, i < n ∧ f i ≠ v ∧ f (i + 1) = v := by
  obtain ⟨i, hi, hlt, hstep⟩ := h.exists_step h0 hn
  refine ⟨i, ⟨hi, hlt.ne, hstep⟩, ?_⟩
  rintro j ⟨-, hne, hj⟩
  have hltj : f j < v := by
    have := h j
    omega
  rcases Nat.lt_trichotomy i j with hij | hij | hij
  · have := h.monotone (show i + 1 ≤ j from hij)
    omega
  · exact hij.symm
  · have := h.monotone (show j + 1 ≤ i from hij)
    omega

/-- **A countdown**: a run in which the rank falls with every step that is not free, and of whose
steps at most `k` are free, stops in time. -/
theorem exists_stop (stop : ℕ → Prop) (free : ℕ → Bool) (rank : ℕ → ℕ) {k b : ℕ} (h0 : rank 0 ≤ b)
    (hpos : ∀ n, (∀ m < n, ¬ stop m) → 0 < rank n)
    (hstep : ∀ n, (∀ m < n + 1, ¬ stop m) → rank (n + 1) + 1 ≤ rank n + (free n).toNat)
    (hfree : ∀ n, (∀ m < n, ¬ stop m) → Nat.count (fun m => free m = true) n ≤ k) :
    ∃ n < k + b, stop n ∧ ∀ m < n, ¬ stop m := by
  have hexists : ∃ n, n < k + b ∧ stop n := by
    by_contra hnever
    push Not at hnever
    have hrank : ∀ n ≤ k + b, rank n + n ≤ b + Nat.count (fun m => free m = true) n := by
      intro n
      induction n with
      | zero => exact fun _ => h0
      | succ n ih =>
        intro hn
        have hprev := ih (by omega)
        have hfall := hstep n fun m hm => hnever m (by omega)
        rw [Nat.count_succ]
        cases hf : free n with
        | false =>
          simp only [hf, Bool.toNat_false, Bool.false_eq_true, if_false] at hfall ⊢
          omega
        | true =>
          simp only [hf, Bool.toNat_true, if_true] at hfall ⊢
          omega
    have hend := hrank (k + b) le_rfl
    have hbound := hfree (k + b) hnever
    have := hpos (k + b) hnever
    omega
  classical
  obtain ⟨hlt, hstop⟩ := Nat.find_spec hexists
  refine ⟨Nat.find hexists, hlt, hstop, fun m hm hs => Nat.find_min hexists hm ⟨?_, hs⟩⟩
  omega

end Sporos.Lib.Counter

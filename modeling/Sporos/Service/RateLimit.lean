import Sporos.Service.Identity
import Sporos.Service.Search

/-! # The rate limit of an indexer

`claim_indexer` and `dependency_error` write the time before which no search of an indexer may
start: the first one overwrites it when it has passed, the second one raises it. Over any sequence
of the two, and of the statements of the second one in between, the time never falls
(`nextEligible_run`). So a claim that succeeds comes after every time that has been recorded, and
two of them are a gap apart, up to the largest number (`rate_limit`). -/

namespace Sporos.Service.RateLimit

open Sporos.Service.Tables Sporos.Service.Ingress Sporos.Service.Search
open Sporos.Lib.Table

/-- A claim, or a statement of a dependency error: the one at a position. -/
inductive RateEvent where
  | claim (indexerId now : I64)
  | dependency (input : SearchInput) (now clock : I64) (attempts : ℕ)
    (error : ProwlarrError) (position : ℕ)

/-- The time before which no search of an indexer may start. -/
def nextEligible (s : SearchDb) (indexerId : I64) : Option ℤ :=
  (lookup RateLimitRow.indexerId s.rateLimits indexerId).map fun row => row.nextEligibleAt.val

/-- A claim of the indexer succeeds. -/
def Claimed (s : SearchDb) (indexerId now : I64) : Prop :=
  ∃ s', claimIndexer s indexerId now = .ok (s', none)

section

variable (codec : Codec) (config : IngressConfig) (message : ProwlarrError → String)

/-- An event that fails leaves the tables as they are. -/
def RateEvent.step (s : SearchDb) : RateEvent → SearchDb
  | .claim indexerId now =>
    match claimIndexer s indexerId now with
    | .ok (s', _) => s'
    | .error _ => s
  | .dependency input now clock attempts error position =>
    match (dependencyWrites message input now clock attempts error).1[position]? with
    | none => s
    | some write =>
      match write.apply codec config input s with
      | .ok s' => s'
      | .error _ => s

/-- The tables after some events. -/
def run (s : SearchDb) (events : List RateEvent) : SearchDb :=
  events.foldl (RateEvent.step codec config message) s

end

/-! ### One event -/

theorem le_saturatingAdd (now : I64) (ms : ℕ) : now.val ≤ (now.saturatingAdd ms).val := by
  have h := now.property
  refine le_min ?_ h.2
  omega

theorem le_later_left (a b : I64) : a.val ≤ (a.later b).val := by
  unfold I64.later
  split_ifs with h
  · exact h
  · exact le_rfl

theorem nextEligible_upsert (s : SearchDb) (new : RateLimitRow) (f : RateLimitRow → RateLimitRow)
    (hf : ∀ row, (f row).indexerId = row.indexerId) (indexerId : I64) :
    nextEligible { s with
      rateLimits := upsert RateLimitRow.indexerId s.rateLimits new f } indexerId =
      if indexerId = new.indexerId then
        some (((lookup RateLimitRow.indexerId s.rateLimits indexerId).map f).getD
          new).nextEligibleAt.val
      else nextEligible s indexerId := by
  rw [nextEligible, lookup_upsert hf]
  split_ifs <;> rfl

/-- A claim that succeeds is not early, and postpones the next one. -/
theorem claimIndexer_claimed {s s' : SearchDb} {indexerId now : I64}
    (h : claimIndexer s indexerId now = .ok (s', none)) :
    (∀ v, nextEligible s indexerId = some v → v ≤ now.val)
      ∧ ∀ indexerId', nextEligible s' indexerId' =
        if indexerId' = indexerId then some (now.saturatingAdd minRequestGapMs).val
          else nextEligible s indexerId' := by
  have hnext : ∀ indexerId', nextEligible
      { s with
        rateLimits := upsert RateLimitRow.indexerId s.rateLimits
          ⟨indexerId, now.saturatingAdd minRequestGapMs, now⟩ fun row =>
            { row with nextEligibleAt := now.saturatingAdd minRequestGapMs, updatedAt := now } }
      indexerId' =
      if indexerId' = indexerId then some (now.saturatingAdd minRequestGapMs).val
      else nextEligible s indexerId' := by
    intro indexerId'
    rw [nextEligible_upsert]
    · split_ifs
      · cases lookup RateLimitRow.indexerId s.rateLimits indexerId' <;> rfl
      · rfl
    · exact fun _ => rfl
  unfold claimIndexer at h
  split at h
  · rename_i row hrow
    split_ifs at h with hearly
    · cases h
    · obtain ⟨rfl, -⟩ := Prod.mk.inj (Except.ok.inj h)
      refine ⟨fun v hv => ?_, hnext⟩
      rw [nextEligible, hrow] at hv
      rw [← Option.some.inj hv]
      exact not_lt.mp hearly
  · rename_i hnone
    split_ifs at h
    obtain ⟨rfl, -⟩ := Prod.mk.inj (Except.ok.inj h)
    refine ⟨fun v hv => ?_, hnext⟩
    rw [nextEligible, hnone] at hv
    cases hv

/-- A claim that is early leaves the tables as they are. -/
theorem claimIndexer_early {s s' : SearchDb} {indexerId now next : I64}
    (h : claimIndexer s indexerId now = .ok (s', some next)) : s' = s := by
  unfold claimIndexer at h
  split at h
  · split_ifs at h
    · exact (Prod.mk.inj (Except.ok.inj h)).1.symm
    · cases h
  · split_ifs at h
    cases h

/-- The time of an indexer does not fall. -/
def Rises (s s' : SearchDb) : Prop :=
  ∀ indexerId v, nextEligible s indexerId = some v → ∃ v',
    nextEligible s' indexerId = some v' ∧ v ≤ v'

theorem rises_of_rateLimits {s s' : SearchDb} (h : s'.rateLimits = s.rateLimits) : Rises s s' := by
  intro indexerId v hv
  rw [nextEligible, ← h] at hv
  exact ⟨v, hv, le_rfl⟩

theorem rises_claim {s s' : SearchDb} {indexerId now : I64} {next : Option I64}
    (h : claimIndexer s indexerId now = .ok (s', next)) : Rises s s' := by
  cases next with
  | some next => exact rises_of_rateLimits (by rw [claimIndexer_early h])
  | none =>
    obtain ⟨hdue, hnext⟩ := claimIndexer_claimed h
    intro indexerId' v hv
    rw [hnext]
    split_ifs with heq
    · subst heq
      exact ⟨_, rfl, (hdue v hv).trans (le_saturatingAdd now _)⟩
    · exact ⟨v, hv, le_rfl⟩

theorem rises_write {codec : Codec} {config : IngressConfig} {input : SearchInput}
    {s s' : SearchDb} {write : Write}
    (h : write.apply codec config input s = .ok s') : Rises s s' := by
  cases write with
  | claim now =>
    obtain ⟨⟨s'', next⟩, hclaim, rfl⟩ := Lib.Loop.map_eq_ok h
    exact rises_claim hclaim
  | postpone next now =>
    simp only [Write.apply] at h
    split_ifs at h
    obtain rfl := Except.ok.inj h
    intro indexerId v hv
    obtain ⟨row, hrow, rfl⟩ := Option.map_eq_some_iff.mp hv
    rw [nextEligible_upsert, hrow]
    · split_ifs
      · exact ⟨_, rfl, le_later_left row.nextEligibleAt next⟩
      · exact ⟨_, hv, le_rfl⟩
    · exact fun _ => rfl
  | summarize ordinal result state candidateId =>
    simp only [Write.apply, summarize] at h
    split_ifs at h
    exact rises_of_rateLimits (by rw [← Except.ok.inj h])
  | accept submission =>
    simp only [Write.apply] at h
    split at h
    · exact rises_of_rateLimits (by rw [← Except.ok.inj h])
    · cases h
  | searchingTask now => exact rises_of_rateLimits (by rw [← Except.ok.inj h])
  | searchingAttempt => exact rises_of_rateLimits (by rw [← Except.ok.inj h]; rfl)
  | waitAttempt next reason => exact rises_of_rateLimits (by rw [← Except.ok.inj h]; rfl)
  | waitTask reason now => exact rises_of_rateLimits (by rw [← Except.ok.inj h])
  | finishAttempt now reason failed seen downloaded =>
    exact rises_of_rateLimits (by rw [← Except.ok.inj h]; rfl)
  | finishTask now reason failed => exact rises_of_rateLimits (by rw [← Except.ok.inj h])

section

variable {codec : Codec} {config : IngressConfig} {message : ProwlarrError → String}

theorem rises_step (s : SearchDb) (event : RateEvent) :
    Rises s (event.step codec config message s) := by
  cases event with
  | claim indexerId now =>
    simp only [RateEvent.step]
    cases h : claimIndexer s indexerId now with
    | ok result => exact rises_claim h
    | error error => exact rises_of_rateLimits rfl
  | dependency input now clock attempts error position =>
    simp only [RateEvent.step]
    split
    · exact rises_of_rateLimits rfl
    · rename_i write hwrite
      cases h : write.apply codec config input s with
      | ok s' => exact rises_write h
      | error error => exact rises_of_rateLimits rfl

/-! ### Any sequence of events -/

/-- **The time never falls.** -/
theorem nextEligible_run : ∀ (events : List RateEvent) (s : SearchDb),
    Rises s (run codec config message s events)
  | [], s => rises_of_rateLimits rfl
  | event :: events, s => by
    intro indexerId v hv
    have hstep : Rises s (event.step codec config message s) := rises_step s event
    obtain ⟨v₁, hv₁, hle₁⟩ := hstep indexerId v hv
    obtain ⟨v₂, hv₂, hle₂⟩ := nextEligible_run events _ indexerId v₁ hv₁
    exact ⟨v₂, hv₂, hle₁.trans hle₂⟩

theorem run_append (s : SearchDb) (events events' : List RateEvent) :
    run codec config message s (events ++ events') =
      run codec config message (run codec config message s events) events' :=
  List.foldl_append

end

/-- **The rate limit.** The time of an indexer never falls; a claim that succeeds is not before a
time that has been recorded; and of two claims that succeed, the later one is a gap after the
earlier one, unless it is made at the largest number. -/
theorem rate_limit (codec : Codec) (config : IngressConfig)
    (message : ProwlarrError → String) (s : SearchDb) (indexerId : I64)
    (before between : List RateEvent) :
    (∀ v, nextEligible (run codec config message s before) indexerId = some v →
        ∃ v', nextEligible (run codec config message s (before ++ between)) indexerId =
          some v' ∧ v ≤ v')
      ∧ (∀ now, Claimed (run codec config message s (before ++ between)) indexerId now →
        ∀ v, nextEligible (run codec config message s before) indexerId = some v → v ≤ now.val)
      ∧ ∀ now later, Claimed (run codec config message s before) indexerId now →
        Claimed (run codec config message s (before ++ .claim indexerId now :: between))
          indexerId later →
        now.val + minRequestGapMs ≤ later.val ∨ later.val = i64Max := by
  have hrises : ∀ v, nextEligible (run codec config message s before) indexerId = some v →
      ∃ v', nextEligible (run codec config message s (before ++ between)) indexerId =
        some v' ∧ v ≤ v' := by
    rw [run_append]
    exact nextEligible_run between _ indexerId
  refine ⟨hrises, ?_, ?_⟩
  · rintro now ⟨s', hclaim⟩ v hv
    obtain ⟨v', hv', hle⟩ := hrises v hv
    exact hle.trans ((claimIndexer_claimed hclaim).1 v' hv')
  · rintro now later ⟨s', hclaim⟩ ⟨s'', hlater⟩
    have hnext := (claimIndexer_claimed hclaim).2 indexerId
    rw [if_pos rfl] at hnext
    have hrun : run codec config message s (before ++ .claim indexerId now :: between)
        = run codec config message s' between := by
      rw [run_append]
      simp only [run, List.foldl_cons, RateEvent.step]
      rw [show claimIndexer (List.foldl (RateEvent.step codec config message) s
        before) indexerId now
        = .ok (s', none) from hclaim]
    rw [hrun] at hlater
    obtain ⟨v', hv', hle⟩ := nextEligible_run between s' indexerId _ hnext
    have hdue := hle.trans ((claimIndexer_claimed hlater).1 v' hv')
    have hmax := later.property.2
    simp only [I64.saturatingAdd] at hdue
    omega

/-- The tables with one indexer. -/
def oneIndexer (indexerId : I64) : SearchDb :=
  ⟨Db.empty, [⟨indexerId, "indexer", 25, true⟩], [], [], []⟩

/-- The latest time. -/
def largest : I64 := ⟨i64Max, by decide, le_rfl⟩

/-- Two claims at the largest number both succeed, with no gap between them. -/
theorem rate_limit_saturated :
    Claimed (oneIndexer ⟨7, by decide⟩) ⟨7, by decide⟩ largest
      ∧ Claimed (run Identity.scanCodec ⟨0, 0, 0, fun _ => none⟩
        (fun _ => "") (oneIndexer ⟨7, by decide⟩)
        [.claim ⟨7, by decide⟩ largest]) ⟨7, by decide⟩ largest
      ∧ ¬(minRequestGapMs : ℤ) ≤ |largest.val - largest.val| :=
  ⟨⟨_, rfl⟩, ⟨_, rfl⟩, by decide⟩

end Sporos.Service.RateLimit
